import PeerRecords.Proofs.Idempotence
import PeerRecords.Proofs.Merge.Associativity
import PeerRecords.Proofs.Rules

/-
  Where the candidates of a reachability check go.
  `Probed ctx mode cs calls found` is the invariant of the probe: each candidate of `cs` that it is
  done with stands in one of the two lists of `found`, and each verified address was asked for and
  answered with yes. One question keeps it (`Probed.ask`), and so does a run of them
  (`probed_of_probeAll`). Settling then takes out of the second list what is in the first
  (`Parted`).
  Two checks made of plain documents are united by updates and by merges alike (`IsUnion`): equal
  candidates have the same address (`isAddressed_of_not_smart`), so it does not matter whether the
  candidates are united before they are settled or after (`outstanding_refreshAll`,
  `outstanding_addAll`).

  Main statement: `candidates_kept_once`.
-/

namespace PeerRecords

open Node Assembly Grammar

/-! ## Questions -/

/-- What is known of the candidates that a check is done with, after the calls made so far. -/
structure Probed (ctx : Context) (mode : ProbeMode) (done : List Node) (calls : List ProbeCall)
    (found : List Node × List Node) : Prop where
  placed : ∀ c ∈ done, (∃ s, c.normalAddress? = some s ∧ (ofString s).isIn found.1 = true) ∨
    c.isIn found.2 = true
  answered : ∀ v ∈ found.1, ∃ call ∈ calls, call.query.mode = mode ∧ call.answer = true ∧
    v = .leaf ctx.expiry (.string call.query.addr.text)
  late : ctx.isLate = true → found.1 = []

section

variable {probe : Probe} {ctx : Context} {mode : ProbeMode} {done cs : List Node}
  {calls calls' : List ProbeCall} {found ends : List Node × List Node}

theorem Probed.start (ctx : Context) (mode : ProbeMode) (calls : List ProbeCall) :
    Probed ctx mode [] calls ([], []) :=
  ⟨by simp, by simp, fun _ => rfl⟩

theorem Node.isIn_addTo_withExpiry {c : Node} (hc : c.Everywhere HasDistinctKeys) (e : Expiry)
    (ns : List Node) : c.isIn (NodeSet.addTo ns (c.withExpiry e)) = true := by
  have hself : (c.withExpiry e).eqv (c.withExpiry e) = true := by
    rw [eqv_withExpiry_left, eqv_withExpiry_right]
    exact eqv_refl hc
  have hin := NodeSet.isIn_addTo_self hself ns
  simp only [isIn, eqv_withExpiry_right] at hin ⊢
  exact hin

/-- A candidate that is not verified is kept as it is. -/
theorem Probed.keep (h : Probed ctx mode done calls found) {c : Node}
    (hc : c.Everywhere HasDistinctKeys) : Probed ctx mode (done ++ [c]) calls
      (found.1, NodeSet.addTo found.2 (c.withExpiry ctx.expiry)) where
  placed := by
    refine List.forall_mem_append.2 ⟨fun d hd => ?_, List.forall_mem_singleton.2 (.inr ?_)⟩
    · exact (h.placed d hd).imp id (NodeSet.isIn_addTo _)
    · exact isIn_addTo_withExpiry hc _ _
  answered := h.answered
  late := h.late

/-- A candidate whose address was asked for and answered with yes is verified. -/
theorem Probed.verify (h : Probed ctx mode done calls found) {c : Node} {call : ProbeCall}
    (hlate : ctx.isLate = false) (hc : c.candidateAddr? = some call.query.addr)
    (hmode : call.query.mode = mode) (hyes : call.answer = true) :
    Probed ctx mode (done ++ [c]) (calls ++ [call])
      (NodeSet.addTo found.1 (.leaf ctx.expiry (.string call.query.addr.text)), found.2) where
  placed := by
    refine List.forall_mem_append.2 ⟨fun d hd => ?_, List.forall_mem_singleton.2 (.inl ?_)⟩
    · exact (h.placed d hd).imp (fun ⟨s, hs, hin⟩ => ⟨s, hs, NodeSet.isIn_addTo _ hin⟩) id
    · have htext : (ofString call.query.addr.text).Everywhere HasDistinctKeys :=
        everywhere_leaf.2 rfl
      exact ⟨call.query.addr.text, by rw [normalAddress?, hc]; rfl, isIn_addTo_withExpiry htext _ _⟩
  answered := by
    intro v hv
    obtain hv | rfl := NodeSet.mem_addTo hv
    · obtain ⟨call', hcall', hrest⟩ := h.answered v hv
      exact ⟨call', List.mem_append_left _ hcall', hrest⟩
    · exact ⟨call, List.mem_append_right _ (List.mem_singleton_self _), hmode, hyes, rfl⟩
  late := by
    rw [hlate]
    intro hfalse
    cases hfalse

theorem Probed.mono (h : Probed ctx mode done calls found) (more : List ProbeCall) :
    Probed ctx mode done (calls ++ more) found where
  placed := h.placed
  answered := by
    intro v hv
    obtain ⟨call, hcall, hrest⟩ := h.answered v hv
    exact ⟨call, List.mem_append_left _ hcall, hrest⟩
  late := h.late

/-- After the deadline nothing is asked; before it, the question is recorded with its answer. -/
theorem run_ask {addr : Multiaddr} {yes : Bool}
    (h : (ask probe ctx mode addr).run.run calls = (.ok yes, calls')) :
    (ctx.isLate = true ∧ yes = false ∧ calls' = calls) ∨ (ctx.isLate = false ∧
      calls' = calls ++ [⟨⟨mode, ctx.writer, addr, ctx.deadline⟩, yes⟩]) := by
  unfold ask at h
  split at h
  next hlate =>
    cases h
    exact .inl ⟨hlate, rfl, rfl⟩
  next hearly =>
    cases h
    exact .inr ⟨Bool.eq_false_of_not_eq_true hearly, rfl⟩

/-- A run of questions keeps what is known, and adds the candidates it was about. -/
theorem probed_of_probeAll (hcs : ∀ c ∈ cs, c.Everywhere HasDistinctKeys)
    (hfound : Probed ctx mode done calls found)
    (h : (probeAll probe ctx mode cs found).run.run calls = (.ok ends, calls')) :
    Probed ctx mode (done ++ cs) calls' ends := by
  induction cs generalizing done calls found with
  | nil =>
    cases h
    rw [List.append_nil]
    exact hfound
  | cons c cs ih =>
    obtain ⟨hc, hrest⟩ := List.forall_mem_cons.1 hcs
    rw [List.append_cons]
    unfold probeAll at h
    split at h
    next => exact ih hrest (hfound.keep hc) h
    next addr haddr =>
      obtain ⟨yes, mid, hask, hrun⟩ := run_bind_eq_ok.1 h
      obtain ⟨_, rfl, rfl⟩ | ⟨hlate, rfl⟩ := run_ask hask
      · exact ih hrest (hfound.keep hc) hrun
      · cases yes with
        | true =>
          have hverified : Probed ctx mode (done ++ [c])
              (calls ++ [⟨⟨mode, ctx.writer, addr, ctx.deadline⟩, true⟩]) _ :=
            hfound.verify hlate haddr rfl rfl
          exact ih hrest hverified hrun
        | false => exact ih hrest ((hfound.mono _).keep hc) hrun

end

/-! ## Checks -/

/-- What a check makes of its candidates: each is verified by its normal address or kept, none is
both, nothing is listed twice, and the network has confirmed what is verified. -/
structure Parted (ctx : Context) (mode : ProbeMode) (candidates : List Node)
    (calls : List ProbeCall) (verified unverified : List Node) : Prop where
  placed : ∀ c ∈ candidates,
    (∃ s, c.normalAddress? = some s ∧ (ofString s).isIn verified = true) ∨ c.isIn unverified = true
  apart : ∀ u ∈ unverified, u.isSettled verified = false
  distinct : areDistinct verified = true ∧ areDistinct unverified = true
  confirmed : ∀ v ∈ verified, ∃ call ∈ calls, call.query.mode = mode ∧ call.answer = true ∧
    v = .leaf ctx.expiry (.string call.query.addr.text)
  late : ctx.isLate = true → verified = []
  given : ∀ u ∈ unverified, ∃ c ∈ candidates, u = c.withExpiry ctx.expiry

/-- Settling parts the candidates. -/
theorem Probed.parted {ctx : Context} {mode : ProbeMode} {cs : List Node} {calls : List ProbeCall}
    {found : List Node × List Node} (h : Probed ctx mode cs calls found)
    (hsorted : Sorted ctx cs found) (hplain : ∀ c ∈ cs, c.isSmart = false) :
    Parted ctx mode cs calls found.1 (outstanding found.1 found.2) where
  placed := by
    intro c hc
    obtain hverified | hkept := h.placed c hc
    · exact .inl hverified
    · obtain ⟨u, hu, huc⟩ := List.any_eq_true.1 hkept
      cases hsettled : u.isSettled found.1 with
      | false =>
        refine .inr (List.any_eq_true.2 ⟨u, List.mem_filter.2 ⟨hu, ?_⟩, huc⟩)
        rw [hsettled]
        rfl
      | true =>
        -- The equal candidate that was kept has the same address, and that is verified.
        have hcs := isSettled_of_eqv huc (hplain c hc) hsettled
        unfold isSettled at hcs
        cases hs : c.normalAddress? with
        | none => rw [hs] at hcs; cases hcs
        | some s => rw [hs] at hcs; exact .inl ⟨s, rfl, hcs⟩
  apart := by
    intro u hu
    have hkept := (List.mem_filter.1 hu).2
    rwa [Bool.not_eq_true'] at hkept
  distinct := ⟨hsorted.distinct.1, areDistinct_sublist List.filter_sublist hsorted.distinct.2⟩
  confirmed := h.answered
  late := h.late
  given := fun u hu => hsorted.unverified u (List.mem_filter.1 hu).1

/-- A check that a grammar without rules of its own makes of a plain predicate parts the candidates
that it was given and those that an earlier one left. -/
theorem Grammar.IsStock.parted {g : Grammar} (hg : g.IsStock) {ctx : Context} {e : Expiry}
    {tag nt : String} {as : List Node} {ps : List (Node × Node)}
    (hplain : (Node.predicate e tag as nt ps).isPlain = true)
    (hdoc : (Node.predicate e tag as nt ps).Everywhere HasDistinctKeys) {e' : Expiry}
    {mode : ProbeMode} {vt ut : String} {vs uvs : List Node} {us : List (Node × Node)}
    {calls : List ProbeCall}
    (h : (g.assemble ctx (.predicate e tag as nt ps)).outcome =
      (.ok (.reachable e' mode vt vs ut uvs us), calls)) :
    readMode ps = .ok mode ∧
      ∃ cs, readRetried ps = .ok cs ∧ Parted ctx mode (as ++ cs) calls vs uvs := by
  have hyields : (g.assemble ctx (.predicate e tag as nt ps)).Yields
      (.reachable e' mode vt vs ut uvs us) := .of_outcome (congrArg Prod.fst h)
  obtain ⟨hgeneric, _⟩ := hg.of_yields hyields
  obtain hrule | ⟨rule, p, hrule, hp⟩ := hg.plans_of_yields hyields
  · rw [assemble_of_no_rule hgeneric hrule] at hyields
    obtain ⟨_, _, hyields⟩ := hyields.bind
    obtain ⟨_, _, hyields⟩ := hyields.bind
    obtain ⟨_, _, hyields⟩ := hyields.bind
    cases yields_pure.1 hyields
  · rw [assemble_of_plans hgeneric hrule hp] at h
    obtain ⟨qs, mid, _, h⟩ := run_bind_eq_ok.1 h
    obtain ⟨us', mid', _, h⟩ := run_bind_eq_ok.1 h
    cases hp with
    | @reachable probe _ cs _ _ hmode hcs =>
      obtain ⟨found, last, hfound, h⟩ := run_bind_eq_ok.1 h
      cases h
      have hwithin : ∀ c ∈ as ++ cs, c.Within (.predicate e tag as nt ps) :=
        List.forall_mem_append.2 ⟨fun c hc => within_argument hc, within_readRetried hcs⟩
      have hkeys : ∀ c ∈ as ++ cs, c.Everywhere HasDistinctKeys :=
        fun c hc v hv => hdoc v ((hwithin c hc).trans hv)
      have hprobed := probed_of_probeAll hkeys (.start ctx mode mid') hfound
      have hsorted : Sorted ctx (as ++ cs) found :=
        sorted_probeAll (fun c hc => hc) ⟨by simp, by simp, rfl, rfl⟩ ⟨_, _, hfound⟩
      refine ⟨hmode, cs, hcs, hprobed.parted hsorted fun c hc => ?_⟩
      exact isPlain_iff.1 hplain c (hwithin c hc)
    | _ => cases h

/-! ## Two checks -/

/-- A list holds what two lists hold, each once, up to equality: each node of the first list stands
in it, but for its expiration, a node that is equal to it for each node of the second, and there is
nothing else in it. -/
structure IsUnion (xs ys zs : List Node) : Prop where
  distinct : areDistinct zs = true
  left : ∀ x ∈ xs, ∃ e, x.withExpiry e ∈ zs
  right : ∀ y ∈ ys, y.isIn zs = true
  given : ∀ z ∈ zs, ∃ x, (x ∈ xs ∨ x ∈ ys) ∧ ∃ e, z = x.withExpiry e

section

variable {xs ys : List Node}

theorem isUnion_refreshAll (hxs : areDistinct xs = true) (hys : ∀ y ∈ ys, y.eqv y = true) :
    IsUnion xs ys (NodeSet.refreshAll xs ys) where
  distinct := NodeSet.areDistinct_refreshAll ys hxs
  left := fun x hx => NodeSet.exists_mem_refreshAll hx ys
  right := fun y hy => NodeSet.isIn_refreshAll_of_mem hys hy
  given := by
    refine NodeSet.forall_mem_refreshAll ?_ (fun x hx => ?_) fun y hy => ?_
    · rintro e _ ⟨x, hx, d, rfl⟩
      exact ⟨x, hx, e, withExpiry_withExpiry d e x⟩
    · exact ⟨x, .inl hx, x.expiry, (withExpiry_expiry x).symm⟩
    · exact ⟨y, .inr hy, y.expiry, (withExpiry_expiry y).symm⟩

theorem isUnion_addAll (hxs : areDistinct xs = true) (hys : ∀ y ∈ ys, y.eqv y = true) :
    IsUnion xs ys (NodeSet.addAll xs ys) where
  distinct := NodeSet.areDistinct_addAll ys hxs
  left := fun x hx => ⟨x.expiry, by rw [withExpiry_expiry]; exact NodeSet.subset_addAll xs ys hx⟩
  right := fun y hy => NodeSet.isIn_addAll_of_mem hys hy
  given := fun z hz => ⟨z, NodeSet.mem_addAll hz, z.expiry, (withExpiry_expiry z).symm⟩

end

/-- A reachability result that a grammar without rules of its own makes of a plain document. -/
def IsCheck (r : Node) : Prop :=
  ∃ (g : Grammar) (ctx : Context) (doc : Node), g.IsStock ∧ doc.isPlain = true ∧
    doc.Everywhere HasDistinctKeys ∧ (g.assemble ctx doc).outcome.1 = .ok r

/-- The lists of a check. -/
structure Listed (vs uvs : List Node) : Prop where
  verified : ∀ v ∈ vs, v.eqv v = true
  unverified : ∀ u ∈ uvs, u.isSmart = false
  reflexive : ∀ u ∈ uvs, u.eqv u = true
  distinct : areDistinct vs = true ∧ areDistinct uvs = true

theorem IsCheck.listed {e : Expiry} {mode : ProbeMode} {vt ut : String} {vs uvs : List Node}
    {us : List (Node × Node)} (h : IsCheck (.reachable e mode vt vs ut uvs us)) :
    Listed vs uvs := by
  obtain ⟨g, ctx, doc, hg, hplain, hdoc, h⟩ := h
  cases made_of_yields (Yields.of_outcome h) with
  | own rule hrule _ => exact absurd hrule (hg rule)
  | reachable _ _ hcandidates hfound _ =>
    refine ⟨fun v hv => ?_, fun u hu => ?_, fun u hu => ?_, hfound.distinct.1,
      areDistinct_sublist List.filter_sublist hfound.distinct.2⟩
    · obtain ⟨s, rfl⟩ := hfound.verified v hv
      exact eqv_refl (everywhere_leaf.2 rfl)
    · obtain ⟨c, hc, rfl⟩ := hfound.unverified u (mem_of_mem_outstanding hu)
      exact isAddressed_of_not_smart.withExpiry _ c (isPlain_iff.1 hplain c (hcandidates c hc))
    · obtain ⟨c, hc, rfl⟩ := hfound.unverified u (mem_of_mem_outstanding hu)
      have hkeys : c.Everywhere HasDistinctKeys := fun v hv => hdoc v ((hcandidates c hc).trans hv)
      rw [eqv_withExpiry_left, eqv_withExpiry_right]
      exact eqv_refl hkeys

section

variable {vs vs' ws uvs uvs' : List Node}

/-- Candidates that are united and then settled are those that each side leaves, united. -/
theorem isUnion_outstanding_refreshAll (h : Listed vs uvs) (h' : Listed vs' uvs') :
    IsUnion (outstanding ws uvs) (outstanding ws uvs')
      (outstanding ws (NodeSet.refreshAll uvs uvs')) := by
  rw [outstanding_refreshAll isAddressed_of_not_smart ws h.unverified h'.unverified]
  exact isUnion_refreshAll (areDistinct_sublist List.filter_sublist h.distinct.2)
    fun n hn => h'.reflexive n (mem_of_mem_outstanding hn)

theorem isUnion_outstanding_addAll (h : Listed vs uvs) (h' : Listed vs' uvs') :
    IsUnion (outstanding ws uvs) (outstanding ws uvs')
      (outstanding ws (NodeSet.addAll uvs uvs')) := by
  rw [outstanding_addAll isAddressed_of_not_smart.address ws h.unverified h'.unverified]
  exact isUnion_addAll (areDistinct_sublist List.filter_sublist h.distinct.2)
    fun n hn => h'.reflexive n (mem_of_mem_outstanding hn)

end

/-- No candidate is lost or listed twice. A check that is made of a plain predicate has each of its
candidates in one of its two lists, and in the first only what the network has confirmed in the mode
of the check. Two checks, each with a network and a deadline of its own, are united list by list
when one updates the other and when they are merged in one mode: what is verified on either side is
verified, and what is left on either side is kept unless its address is verified now. A merge asks
its resolver, in whatever monad, about the user's fields only. Of the predicates it is asked that no
key repeats, as no dict can hold two equal keys. -/
theorem candidates_kept_once {g : Grammar} (hg : g.IsStock) {ctx : Context} {e : Expiry}
    {tag nt : String} {as : List Node} {ps : List (Node × Node)}
    (hplain : (Node.predicate e tag as nt ps).isPlain = true)
    (hdoc : (Node.predicate e tag as nt ps).Everywhere HasDistinctKeys) {d : Expiry}
    {mode : ProbeMode} {vt ut : String} {vs uvs : List Node} {us : List (Node × Node)}
    {calls : List ProbeCall}
    (h : (g.assemble ctx (.predicate e tag as nt ps)).outcome =
      (.ok (.reachable d mode vt vs ut uvs us), calls)) :
    (∃ cs, readRetried ps = .ok cs ∧ Parted ctx mode (as ++ cs) calls vs uvs) ∧
    ∀ {d' : Expiry} {mode' : ProbeMode} {vt' ut' : String} {vs' uvs' : List Node}
      {us' : List (Node × Node)}, IsCheck (.reachable d' mode' vt' vs' ut' uvs' us') →
      (∀ r, (Node.reachable d mode vt vs ut uvs us).update
          (.reachable d' mode' vt' vs' ut' uvs' us') = .ok r →
        ∃ ws zs rs, r = .reachable (Expiry.combine d d') mode' vt ws ut zs rs ∧
          IsUnion vs vs' ws ∧ IsUnion (outstanding ws uvs) (outstanding ws uvs') zs) ∧
      (mode' = mode → ∃ ws zs,
        IsUnion vs vs' ws ∧ IsUnion (outstanding ws uvs) (outstanding ws uvs') zs ∧
        ∀ {M : Type → Type} [Monad M] (resolve : Resolver M),
          (Node.reachable d mode vt vs ut uvs us).merge resolve
              (.reachable d' mode' vt' vs' ut' uvs' us') = do
            let rs ← mergeEntries resolve us us'
            pure (.reachable (Expiry.combine d d') mode vt ws ut zs (rs ++ unmatched us us'))) := by
  obtain ⟨_, cs, hcs, hparted⟩ := hg.parted hplain hdoc h
  have hcheck : IsCheck (.reachable d mode vt vs ut uvs us) :=
    ⟨g, ctx, _, hg, hplain, hdoc, congrArg Prod.fst h⟩
  refine ⟨⟨cs, hcs, hparted⟩, fun hcheck' => ?_⟩
  have hlisted := hcheck.listed
  have hlisted' := hcheck'.listed
  constructor
  · intro r hr
    cases updated_of_update hr with
    | reachable _ _ _ _ _ _ _ _ _ _ hrs =>
      exact ⟨_, _, _, rfl, isUnion_refreshAll hlisted.distinct.1 hlisted'.verified,
        isUnion_outstanding_refreshAll hlisted hlisted'⟩
  · rintro rfl
    refine ⟨_, _, isUnion_addAll hlisted.distinct.1 hlisted'.verified,
      isUnion_outstanding_addAll hlisted hlisted', fun resolve => ?_⟩
    rw [merge, if_pos rfl]

/-- An address twice, another as a predicate and again among those left before, and no address. -/
def repeatedCandidates : Node :=
  .predicate none "reachable"
    [ofString "/ip4/10.0.0.1/tcp/1", .predicate none "multiaddress" [ofString "/tcp/2"] "" [],
      ofString "/ip4/10.0.0.1/tcp/1", ofString "nowhere"] ""
    [(ofString "unverified", .set none "" [ofString "/tcp/2"])]

/-- A network that can be reached just once. -/
def reachedOnce : Probe := fun calls _ => calls.isEmpty

/-- How many candidates of a dialled result are verified, and how many are not. -/
def dialledSizes? : Node → Option (Nat × Nat)
  | .reachable none .dial _ vs _ uvs _ => some (vs.length, uvs.length)
  | _ => none

theorem dialledSizes?_eq_some {n : Node} {k l : Nat} (h : dialledSizes? n = some (k, l)) :
    ∃ vt ut vs uvs us, n = .reachable none .dial vt vs ut uvs us ∧ vs.length = k ∧
      uvs.length = l := by
  unfold dialledSizes? at h
  split at h
  · cases h
    exact ⟨_, _, _, _, _, rfl, rfl, rfl⟩
  · cases h

/-- One address is verified at its first question, so that the second candidate for it is left out;
three candidates are kept. -/
theorem repeatedCandidates_kept_once :
    ∃ (vt ut : String) (vs uvs : List Node) (us : List (Node × Node)) (calls : List ProbeCall),
      ((standard.withProbe reachedOnce).assemble {} repeatedCandidates).outcome =
        (.ok (.reachable none .dial vt vs ut uvs us), calls) ∧
      (vs.length = 1 ∧ uvs.length = 3) ∧ (∃ cs, Parted {} .dial cs calls vs uvs) ∧
      ∃ ws zs, IsUnion vs vs ws ∧ IsUnion (outstanding ws uvs) (outstanding ws uvs) zs := by
  have hg : (standard.withProbe reachedOnce).IsStock := isStock_standard.withProbe _
  have hplain : repeatedCandidates.isPlain = true := by decide
  have hdoc : repeatedCandidates.Everywhere HasDistinctKeys := by decide
  have hsizes : (((standard.withProbe reachedOnce).assemble {}
      repeatedCandidates).outcome.1.toOption.bind dialledSizes?) = some (1, 3) := by decide +kernel
  generalize hout : ((standard.withProbe reachedOnce).assemble {} repeatedCandidates).outcome = out
    at hsizes ⊢
  obtain ⟨result, calls⟩ := out
  obtain ⟨m, hm, hsizes⟩ := Option.bind_eq_some_iff.1 hsizes
  obtain rfl : result = .ok m := toOption_eq_some.1 hm
  obtain ⟨vt, ut, vs, uvs, us, rfl, hvs, huvs⟩ := dialledSizes?_eq_some hsizes
  obtain ⟨⟨cs, _, hparted⟩, htwo⟩ := candidates_kept_once hg hplain hdoc hout
  obtain ⟨ws, zs, hws, hzs, _⟩ :=
    (htwo ⟨_, _, _, hg, hplain, hdoc, congrArg Prod.fst hout⟩).2 rfl
  exact ⟨vt, ut, vs, uvs, us, calls, rfl, ⟨hvs, huvs⟩, ⟨_, hparted⟩, ws, zs, hws, hzs⟩

end PeerRecords
