import PeerRecords.Proofs.Retry

/-
  Addresses that the network accepts.
  A check records as verified what the network has accepted in its mode (`reached_of_yields`). An
  update unites what both sides have verified and takes the newer mode; so a result whose mode
  changes keeps addresses that were never asked for in the new mode. That is all that can go wrong:
  an updated document is as it should be just if wherever nodes come together in the update
  (`Gathers`) the network accepts the addresses of all of them in the mode of the last one
  (`everywhere_isReached_update_iff`). Most often a stored node takes in one new node; but a stored
  key may be equal to several new ones, if elements of a set inside it repeat, and then their values
  are taken in one after the other.

  Main statement: `verified_reached_run_iff`, for all states of all runs of a store.
-/

namespace PeerRecords

open Node Grammar Assembly

/-! ## Accepted addresses -/

/-- The node is the text of an address that the network accepts in the mode. -/
def Accepts (reaches : ProbeMode → Multiaddr → Bool) (mode : ProbeMode) (v : Node) : Prop :=
  ∃ s addr, v.string? = some s ∧ Multiaddr.parse s = .ok addr ∧ reaches mode addr = true

namespace Node

/-- What a reachability result lists as verified, the network accepts in the mode of the result. -/
def IsReached (reaches : ProbeMode → Multiaddr → Bool) : Node → Prop
  | .reachable _ mode _ vs _ _ _ => ∀ v ∈ vs, Accepts reaches mode v
  | _ => True

/-- The user's fields of a reachability result leave the names of its own arguments alone. -/
def IsUnhidden : Node → Prop
  | .reachable _ _ _ _ _ _ us => ∀ u ∈ us, isReserved reachableNames u.1 = false
  | _ => True

/-- The plain form of a reachability result gives its addresses as arguments, and its mode is read
off it. -/
def TellsMode : Node → Prop
  | .reachable e mode vt vs ut uvs us =>
    ∃ ps, (reachable e mode vt vs ut uvs us).disassemble =
      .predicate e "reachable" (disassembleAll vs) "" ps ∧ readMode ps = .ok mode
  | _ => True

/-- The network accepts what a reachability result has verified in the mode of another one. -/
def Recasts (reaches : ProbeMode → Multiaddr → Bool) : Node → Node → Prop
  | .reachable _ _ _ vs _ _ _, .reachable _ mode _ _ _ _ _ => ∀ v ∈ vs, Accepts reaches mode v
  | _, _ => True

/-- Two reachability results have one mode. -/
def KeepsMode : Node → Node → Prop
  | .reachable _ mode _ _ _ _ _, .reachable _ mode' _ _ _ _ _ => mode = mode'
  | _, _ => True

/-- Each node of a row, which starts with `x`, stands in the relation to the last one. -/
def ToLast (R : Node → Node → Prop) (x : Node) (ys : List Node) : Prop :=
  ∀ z ∈ x :: ys, R z (ys.getLastD x)

end Node

section

variable {reaches : ProbeMode → Multiaddr → Bool} {mode : ProbeMode}

theorem Accepts.withExpiry (e : Expiry) (v : Node) (h : Accepts reaches mode v) :
    Accepts reaches mode (v.withExpiry e) := by
  obtain ⟨s, addr, hs, haddr⟩ := h
  exact ⟨s, addr, (string?_withExpiry e v).trans hs, haddr⟩

theorem Accepts.of_eqv {v w : Node} (h : Accepts reaches mode v) (hvw : v.eqv w = true) :
    Accepts reaches mode w := by
  obtain ⟨s, addr, hs, haddr⟩ := h
  exact ⟨s, addr, (string?_of_eqv hvw).symm.trans hs, haddr⟩

theorem isReached_withExpiry (e : Expiry) (n : Node) (h : n.IsReached reaches) :
    (n.withExpiry e).IsReached reaches := by
  cases n <;> exact h

theorem isReached_of_isSmart {n : Node} (h : n.isSmart = false) : n.IsReached reaches := by
  cases n with
  | reachable e m vt vs ut uvs us => cases h
  | _ => trivial

/-- A network that accepts in every mode what the given one accepts in some mode. -/
def inSomeMode (reaches : ProbeMode → Multiaddr → Bool) : ProbeMode → Multiaddr → Bool :=
  fun _ addr => reaches .dial addr || reaches .connection addr

theorem Accepts.inSomeMode {v : Node} (h : Accepts reaches mode v) (mode' : ProbeMode) :
    Accepts (inSomeMode reaches) mode' v := by
  obtain ⟨s, addr, hs, haddr, hyes⟩ := h
  refine ⟨s, addr, hs, haddr, ?_⟩
  unfold PeerRecords.inSomeMode
  cases mode with
  | dial => rw [hyes, Bool.true_or]
  | connection => rw [hyes, Bool.or_true]

theorem isReached_inSomeMode {n : Node} (h : n.IsReached reaches) :
    n.IsReached (inSomeMode reaches) := by
  cases n with
  | reachable e m vt vs ut uvs us => exact fun v hv => (h v hv).inSomeMode m
  | _ => trivial

theorem recasts_self_iff {x : Node} : Recasts reaches x x ↔ x.IsReached reaches := by
  cases x <;> exact Iff.rfl

/-- A result recasts soundly what was verified in its own mode. -/
theorem Node.KeepsMode.recasts {x y : Node} (h : KeepsMode x y) (hx : x.IsReached reaches) :
    Recasts reaches x y := by
  cases x with
  | reachable e m vt vs ut uvs us =>
    cases y with
    | reachable e' m' vt' vs' ut' uvs' us' =>
      obtain rfl : m = m' := h
      exact hx
    | _ => trivial
  | _ => trivial

theorem Node.IsReached.recasts_inSomeMode {x y : Node} (h : x.IsReached (inSomeMode reaches)) :
    Recasts (inSomeMode reaches) x y := by
  cases x with
  | reachable e m vt vs ut uvs us =>
    cases y with
    | reachable e' m' vt' vs' ut' uvs' us' => exact h
    | _ => trivial
  | _ => trivial

/-! ## What assembly records -/

theorem yields_ask {ctx : Context} {addr : Multiaddr}
    (h : (ask (.ofPredicate reaches) ctx mode addr).Yields true) : reaches mode addr = true := by
  unfold ask at h
  split at h
  next => cases yields_pure.1 h
  next =>
    obtain ⟨calls, _, h⟩ := h.bind
    obtain ⟨_, _, h⟩ := h.bind
    exact yields_pure.1 h

theorem accepts_of_probeAll {ctx : Context} {cs : List Node} {found ends : List Node × List Node}
    (hfound : ∀ v ∈ found.1, Accepts reaches mode v)
    (h : (probeAll (.ofPredicate reaches) ctx mode cs found).Yields ends) :
    ∀ v ∈ ends.1, Accepts reaches mode v := by
  induction cs generalizing found with
  | nil =>
    obtain rfl := yields_pure.1 h
    exact hfound
  | cons c cs ih =>
    unfold probeAll at h
    split at h
    next =>
      refine ih ?_ h
      exact hfound
    next addr haddr =>
      obtain ⟨yes, hask, h⟩ := h.bind
      split at h
      next hyes =>
        subst hyes
        obtain ⟨s, hs, hparse⟩ := Option.bind_eq_some_iff.1 haddr
        have hparse : Multiaddr.parse s = .ok addr := toOption_eq_some.1 hparse
        have haccepted : Accepts reaches mode (.leaf ctx.expiry (.string addr.text)) :=
          ⟨addr.text, addr, rfl, (Multiaddr.text_of_parse hparse).symm ▸ hparse, yields_ask hask⟩
        refine ih (fun v hv => ?_) h
        obtain hv | rfl := NodeSet.mem_addTo hv
        · exact hfound v hv
        · exact haccepted
      next =>
        refine ih ?_ h
        exact hfound

/-- In what is made of a plain document every reachability result is as the network has confirmed
it. -/
theorem reached_of_yields {ctx : Context} {n m : Node} (hn : n.isPlain = true)
    (h : ((standard.withProbe (.ofPredicate reaches)).assemble ctx n).Yields m) :
    m.Everywhere (IsReached reaches) := by
  have hg : (standard.withProbe (.ofPredicate reaches)).IsStock := isStock_standard.withProbe _
  have hplain : ∀ {v : Node}, v.isPlain = true → v.Everywhere (IsReached reaches) :=
    fun hv => (isPlain_iff.1 hv).mono fun _ => isReached_of_isSmart
  induction n using induct_children generalizing m with
  | step n ih =>
    refine everywhere_iff.2 ⟨?_, fun c hc => ?_⟩
    · cases hg.assembled_of_yields h with
      | @planned e nt rule as ps us p m hrule hp hus hm =>
        cases hp with
        | @reachable probe _ cs _ mode hmode hcs =>
          obtain rfl : Probe.ofPredicate reaches = probe := by
            cases hrule
            rfl
          obtain ⟨found, hfound, hm⟩ := hm.bind
          obtain rfl := yields_pure.1 hm
          exact accepts_of_probeAll (by simp) hfound
        | _ =>
          obtain rfl := yields_pure.1 hm
          trivial
      | _ => trivial
    · have hwithin := isPlain_iff.1 hn
      obtain ⟨x, hx, hxc⟩ | ⟨x, _, rfl⟩ | ⟨_, x, hx, rfl⟩ | ⟨s, rfl⟩ | ⟨rule, hrule, _⟩ :=
        (made_of_yields h).child hc
      · exact ih x hx (isPlain_iff.2 (hwithin.child hx)) hxc
      · exact hplain (isPlain_disassemble x)
      · have hxplain : x.Everywhere (IsReached reaches) :=
          hplain (isPlain_iff.2 fun v hv => hwithin v (hx.trans hv))
        exact hxplain.withExpiry isReached_withExpiry ctx.expiry
      · exact everywhere_leaf.2 trivial
      · exact absurd hrule (hg rule)

theorem unhidden_of_yields {g : Grammar} (hg : g.IsStock) {ctx : Context} {n m : Node}
    (hn : n.isPlain = true) (h : (g.assemble ctx n).Yields m) : m.Everywhere IsUnhidden := by
  have hsmart : ∀ v : Node, v.isSmart = false → v.IsUnhidden := by
    intro v hv
    cases v with
    | reachable e m vt vs ut uvs us => cases hv
    | _ => trivial
  refine everywhere_of_yields ?_ (fun x _ => everywhere_disassemble hsmart x) ?_ (fun s => trivial)
    (hg.upholds _) (isPlain_iff.1 hn) h
  · intro n m _ hm
    cases hm with
    | reachable _ _ _ _ hus =>
      intro u hu
      obtain ⟨p, _, hp, hk, _⟩ := hus.mem hu
      exact isReserved_of_yields hg hk hp
    | own rule hrule _ => exact absurd hrule (hg rule)
    | _ => trivial
  · intro x _ hx
    refine (hx.mono hsmart).withExpiry (fun e n hn => ?_) ctx.expiry
    cases n <;> exact hn

end

/-! ## What a plain form tells -/

theorem ProbeMode.ofName?_name (mode : ProbeMode) : ofName? mode.name = some mode := by
  cases mode <;> rfl

/-- The mode is read off the plain form if the user's fields leave its name alone. -/
theorem Node.IsUnhidden.tellsMode {n : Node} (h : n.IsUnhidden) : n.TellsMode := by
  cases n with
  | reachable e mode vt vs ut uvs us =>
    refine ⟨_, rfl, ?_⟩
    have hus : ∀ u ∈ us.reverse, isReserved reachableNames u.1 = false :=
      fun u hu => h u (List.mem_reverse.1 hu)
    have hown : namedArgument? "check" (reachableFields mode ut (disassembleAll uvs)) =
        some (ofString mode.name) := rfl
    have hcheck := namedArgument?_layOver "check" (reachableFields mode ut (disassembleAll uvs)) us
    rw [namedArgument?_of_untouched (by decide) hus, hown] at hcheck
    simp only [readMode, hcheck, Option.map_none, Option.none_or, ofString, string?,
      Option.bind_some, ProbeMode.ofName?_name]
  | _ => trivial

theorem isUnhidden_withExpiry (e : Expiry) (n : Node) (h : n.IsUnhidden) :
    (n.withExpiry e).IsUnhidden := by
  cases n <;> exact h

theorem Node.Updated.isUnhidden {a b r : Node} (h : Updated a b r) (ha : a.IsUnhidden)
    (hb : b.IsUnhidden) : r.IsUnhidden := by
  cases h with
  | reachable e e' m m' vt ut vs vs' uvs uvs' h =>
    refine forall_fst_updateEntries (P := fun c => isReserved reachableNames c = false) ?_ h ha hb
    intro e n hn
    rw [isReserved_withExpiry]
    exact hn
  | _ => trivial

theorem Node.Left.isUnhidden {now : Instant} {n m : Node} (h : Left now n m) (hn : n.IsUnhidden) :
    m.IsUnhidden := by
  cases h with
  | whole n h => exact hn
  | _ => trivial

theorem Node.Left.isReached {reaches : ProbeMode → Multiaddr → Bool} {now : Instant} {n m : Node}
    (h : Left now n m) (hn : n.IsReached reaches) : m.IsReached reaches := by
  cases h with
  | whole n h => exact hn
  | _ => trivial

/-! ## Updates -/

section

variable {reaches : ProbeMode → Multiaddr → Bool} {a b r x y : Node}

/-- An updated result has the mode of the newer one. -/
theorem Node.Updated.recasts_right_iff (h : Updated a b r) :
    Recasts reaches x r ↔ Recasts reaches x b := by
  cases h <;> cases x <;> exact Iff.rfl

/-- An updated result lists the addresses of both. -/
theorem Node.Updated.recasts_left_iff (h : Updated a b r) :
    Recasts reaches r y ↔ Recasts reaches a y ∧ Recasts reaches b y := by
  cases h with
  | reachable e e' m m' vt ut vs vs' uvs uvs' h =>
    cases y with
    | reachable e'' mode vt'' vs'' ut'' uvs'' us'' =>
      show (∀ v ∈ NodeSet.refreshAll vs vs', Accepts reaches mode v) ↔
        (∀ v ∈ vs, Accepts reaches mode v) ∧ ∀ v ∈ vs', Accepts reaches mode v
      have hkeeps : ∀ {v : Node} {e : Expiry}, Accepts reaches mode (v.withExpiry e) →
          Accepts reaches mode v := by
        intro v e hv
        have hv := hv.withExpiry v.expiry
        rwa [withExpiry_withExpiry, withExpiry_expiry] at hv
      constructor
      · intro hall
        refine ⟨fun v hv => ?_, fun v hv => ?_⟩
        · obtain ⟨e, he⟩ := NodeSet.exists_mem_refreshAll hv vs'
          exact hkeeps (hall _ he)
        · obtain ⟨w, hw, ⟨e, rfl⟩ | hwv⟩ := NodeSet.exists_mem_refreshAll_of_mem hv vs
          · exact hkeeps (hall _ hw)
          · exact (hall w hw).of_eqv hwv
      · rintro ⟨hold, hnew⟩
        exact NodeSet.forall_mem_refreshAll Accepts.withExpiry hold hnew
    | _ => exact iff_of_true trivial ⟨trivial, trivial⟩
  | _ => cases y <;> exact iff_of_true trivial ⟨trivial, trivial⟩

/-- What comes of a row of updates is as it should be just if the addresses of all are accepted in
the mode of the last. -/
theorem isReached_updateAll_iff {bs : List Node} (h : updateAll a bs = .ok r) :
    r.IsReached reaches ↔ ToLast (Recasts reaches) a bs := by
  induction bs generalizing a with
  | nil =>
    cases h
    rw [← recasts_self_iff]
    exact (List.forall_mem_singleton (p := fun z => Recasts reaches z _)).symm
  | cons b bs ih =>
    rw [updateAll_cons] at h
    obtain ⟨v, hv, h⟩ := bind_eq_ok.1 h
    have hv := updated_of_update hv
    have hlast : ∀ z, Recasts reaches z (bs.getLastD v) ↔ Recasts reaches z (bs.getLastD b) := by
      intro z
      cases bs with
      | nil => exact hv.recasts_right_iff
      | cons c bs => exact Iff.rfl
    rw [ih h]
    unfold ToLast
    rw [List.getLastD_cons, List.forall_mem_cons, List.forall_mem_cons, List.forall_mem_cons,
      hv.recasts_left_iff, hlast, hlast, and_assoc]
    simp only [hlast]

/-- An updated document is as the network has confirmed it just if wherever nodes come together in
the update the addresses of all are accepted in the mode of the last. -/
theorem everywhere_isReached_update_iff (ha : a.Everywhere (IsReached reaches))
    (hb : b.Everywhere (IsReached reaches)) (h : a.update b = .ok r) :
    r.Everywhere (IsReached reaches) ↔
      ∀ x ys, Gathers x ys a [b] → ToLast (Recasts reaches) x ys :=
  everywhere_updateAll_iff isReached_withExpiry isReached_updateAll_iff
    (List.forall_mem_cons.2 ⟨ha, List.forall_mem_singleton.2 hb⟩)
    ((updateAll_singleton a b).trans h)

end

/-! ## Runs -/

namespace Store

/-- The step is a write that succeeds, and in its update of the stored document by the new one `x`
takes in `ys`. -/
def Joins (s : Store) (a : Step) (x : Node) (ys : List Node) : Prop :=
  ∃ now writer key doc options s' old m, a = .write now writer key doc options ∧
    (s.update now writer key doc options).1 = .ok s' ∧ s.slot? key writer = some old ∧
    (s.grammar.assemble (s.writeContext now writer options) doc).outcome.1 = .ok m ∧
    Gathers x ys old [m]

variable {reaches : ProbeMode → Multiaddr → Bool}

/-- In a write that succeeds nodes come together as they do in its update, if its slot is not
empty. -/
theorem joins_write_iff {s s' : Store} {now : Instant} {writer : PeerId} {key : String} {doc : Node}
    {options : WriteOptions} {m x : Node} {ys : List Node}
    (hs' : (s.update now writer key doc options).1 = .ok s')
    (hm : (s.grammar.assemble (s.writeContext now writer options) doc).outcome.1 = .ok m) :
    s.Joins (.write now writer key doc options) x ys ↔
      ∃ old, s.slot? key writer = some old ∧ Gathers x ys old [m] := by
  constructor
  · rintro ⟨_, _, _, _, _, _, old, m', ha, _, hold, hm', hxys⟩
    cases ha
    rw [hm] at hm'
    cases hm'
    exact ⟨old, hold, hxys⟩
  · rintro ⟨old, hold, hxys⟩
    exact ⟨now, writer, key, doc, options, s', old, m, rfl, hs', hold, hm, hxys⟩

/-- What comes together in a write is part of the stored document or of what is assembled. -/
theorem Joins.forall_of_everywhere {P : Node → Prop} {s : Store} {a : Step} {x : Node}
    {ys : List Node} (h : s.Joins a x ys) (hs : s.AllSlots fun d => d.Everywhere P)
    {D : Node → Prop} (ha : a.Writes D)
    (hmade : ∀ ctx n m, D n → (s.grammar.assemble ctx n).Yields m → m.Everywhere P) :
    ∀ z ∈ x :: ys, P z := by
  obtain ⟨_, writer, key, doc, _, _, old, m, rfl, _, hold, hm, hxys⟩ := h
  exact hxys.of_everywhere (List.forall_mem_cons.2 ⟨hs key writer old hold,
    List.forall_mem_singleton.2 (hmade _ doc m ha (.of_outcome hm))⟩)

/-- A step keeps all slots as the network has confirmed them just if wherever nodes come together in
it the addresses of all are accepted in the mode of the last. -/
theorem reached_step_iff {s : Store} {a : Step}
    (hg : s.grammar = standard.withProbe (.ofPredicate reaches))
    (hs : s.AllSlots fun d => d.Everywhere (IsReached reaches))
    (ha : a.Writes fun n => n.isPlain = true) :
    ((s.step a).AllSlots fun d => d.Everywhere (IsReached reaches)) ↔
      ∀ x ys, s.Joins a x ys → ToLast (Recasts reaches) x ys := by
  cases a with
  | sweep now =>
    refine iff_of_true (fun key writer d hd => ?_) ?_
    · rw [step, slot?_collect] at hd
      obtain ⟨old, hold, hd⟩ := Option.bind_eq_some_iff.1 hd
      exact everywhere_sweep Left.isReached (hs key writer old hold) hd
    · rintro x ys ⟨now, writer, key, doc, options, s', old, m, ha, _⟩
      cases ha
  | write now writer key doc options =>
    cases hs' : (s.update now writer key doc options).1 with
    | error e =>
      rw [step, hs']
      refine iff_of_true hs ?_
      rintro x ys ⟨_, _, _, _, _, s', old, m, ha, hok, _⟩
      cases ha
      rw [hs'] at hok
      cases hok
    | ok s' =>
      obtain ⟨m, r, hm, _, hr, rfl⟩ := update_eq_ok hs'
      have hmade : (s.grammar.assemble (s.writeContext now writer options) doc).Yields m :=
        .of_outcome hm
      rw [hg] at hmade
      have hmreached := reached_of_yields ha hmade
      rw [step, hs', allSlots_put_iff hs]
      simp only [joins_write_iff hs' hm]
      cases hold : s.slot? key writer with
      | none =>
        rw [hold] at hr
        cases hr
        refine iff_of_true hmreached ?_
        rintro x ys ⟨old, hnone, _⟩
        cases hnone
      | some old =>
        rw [hold] at hr
        rw [everywhere_isReached_update_iff (hs key writer old hold) hmreached hr]
        simp only [Option.some.injEq, exists_eq_left']

section

variable {config : StoreSettings} {steps : List Step}

/-- One more step of a run. -/
theorem reached_run_append_iff (hsteps : ∀ a ∈ steps, a.Writes fun n => n.isPlain = true)
    {before after : List Step} {a : Step} (h : steps = before ++ a :: after)
    (hbefore : ((empty (standard.withProbe (.ofPredicate reaches)) config).run before).AllSlots
      fun d => d.Everywhere (IsReached reaches)) :
    (((empty (standard.withProbe (.ofPredicate reaches)) config).run (before ++ [a])).AllSlots
        fun d => d.Everywhere (IsReached reaches)) ↔
      ∀ x ys, ((empty (standard.withProbe (.ofPredicate reaches)) config).run before).Joins a x ys →
        ToLast (Recasts reaches) x ys := by
  rw [run_append_singleton]
  exact reached_step_iff (grammar_run _ before) hbefore (hsteps a (by rw [h]; simp))

/-- Every state of a run is as the network has confirmed it if in each step from such a state the
addresses of all nodes that come together are accepted in the mode of the last. -/
theorem reached_before (hsteps : ∀ a ∈ steps, a.Writes fun n => n.isPlain = true)
    (hrecasts : ∀ before a after, steps = before ++ a :: after →
      ((empty (standard.withProbe (.ofPredicate reaches)) config).run before).AllSlots
        (fun d => d.Everywhere (IsReached reaches)) →
      ∀ x ys, ((empty (standard.withProbe (.ofPredicate reaches)) config).run before).Joins a x ys →
        ToLast (Recasts reaches) x ys) (before after : List Step) (h : steps = before ++ after) :
    ((empty (standard.withProbe (.ofPredicate reaches)) config).run before).AllSlots
      fun d => d.Everywhere (IsReached reaches) := by
  induction before using List.reverseRecOn generalizing after with
  | nil => exact allSlots_empty _ _ _
  | append_singleton before a ih =>
    have hsplit : steps = before ++ a :: after := by rw [h, List.append_assoc]; rfl
    have hbefore := ih (a :: after) hsplit
    exact (reached_run_append_iff hsteps hsplit hbefore).2 (hrecasts before a after hsplit hbefore)

end

/-- What a result lists has been accepted in some mode, and its plain form tells its mode. -/
theorem told_run (reaches : ProbeMode → Multiaddr → Bool) (config : StoreSettings)
    {steps : List Step} (hsteps : ∀ a ∈ steps, a.Writes fun n => n.isPlain = true) :
    ((empty (standard.withProbe (.ofPredicate reaches)) config).run steps).AllSlots fun d =>
      d.Everywhere fun n => n.TellsMode ∧ n.IsReached (inSomeMode reaches) := by
  have hstock : (standard.withProbe (.ofPredicate reaches)).IsStock := isStock_standard.withProbe _
  have hrun := allSlots_run (s := empty (standard.withProbe (.ofPredicate reaches)) config)
    (Q := fun d => d.Everywhere fun n => n.IsUnhidden ∧ n.IsReached (inSomeMode reaches))
    (allSlots_empty _ _ _) ?_ ?_ ?_ hsteps
  · exact fun key writer d hd => (hrun key writer d hd).mono fun n hn => ⟨hn.1.tellsMode, hn.2⟩
  · intro ctx n m hn h v hv
    exact ⟨unhidden_of_yields hstock hn h v hv,
      isReached_inSomeMode (reached_of_yields hn h v hv)⟩
  · refine fun old new r hold hnew h => everywhere_update ?_ ?_ hold hnew h
    · exact fun e n hn => ⟨isUnhidden_withExpiry e n hn.1, isReached_withExpiry e n hn.2⟩
    · exact fun hr ha hb => ⟨hr.isUnhidden ha.1 hb.1, recasts_self_iff.1
        (hr.recasts_left_iff.2 ⟨ha.2.recasts_inSomeMode, hb.2.recasts_inSomeMode⟩)⟩
  · refine fun now old d hold h => everywhere_sweep (fun hleft hn => ?_) hold h
    exact ⟨hleft.isUnhidden hn.1, hleft.isReached hn.2⟩

end Store

/-- In every state of every run of plain writes and sweeps, over a network whose answers depend on
the mode and the address alone, the network accepts in some mode whatever a reachability result
lists as verified, and the result tells its mode. It accepts all of it in the mode of the result
just if it does so wherever a write updates stored results by new ones: what they all have verified,
it accepts in the mode of the last one. This is so if no write changes the mode of a result. -/
theorem verified_reached_run_iff (reaches : ProbeMode → Multiaddr → Bool) (config : StoreSettings)
    {steps : List Store.Step} (hsteps : ∀ a ∈ steps, a.Writes fun n => n.isPlain = true) :
    let s := Store.empty (standard.withProbe (.ofPredicate reaches)) config
    (∀ before after, steps = before ++ after → (s.run before).AllSlots fun d =>
      d.Everywhere fun n => n.TellsMode ∧ n.IsReached (inSomeMode reaches)) ∧
    ((∀ before after, steps = before ++ after →
        (s.run before).AllSlots fun d => d.Everywhere (IsReached reaches)) ↔
      ∀ before a after, steps = before ++ a :: after →
        ∀ x ys, (s.run before).Joins a x ys → ToLast (Recasts reaches) x ys) ∧
    ((∀ before a after, steps = before ++ a :: after →
        ∀ x ys, (s.run before).Joins a x ys → ToLast KeepsMode x ys) →
      ∀ before after, steps = before ++ after →
        (s.run before).AllSlots fun d => d.Everywhere (IsReached reaches)) := by
  intro s
  refine ⟨fun before after h => ?_, ⟨fun h before a after hsplit => ?_, fun h => ?_⟩, fun h => ?_⟩
  · exact Store.told_run reaches config fun a ha =>
      hsteps a (by rw [h]; exact List.mem_append_left _ ha)
  · have hafter := h (before ++ [a]) after (by simpa using hsplit)
    exact (Store.reached_run_append_iff hsteps hsplit (h before _ hsplit)).1 hafter
  · exact Store.reached_before hsteps fun before a after hsplit _ => h before a after hsplit
  · refine Store.reached_before hsteps fun before a after hsplit hbefore x ys hxys z hz => ?_
    refine (h before a after hsplit x ys hxys z hz).recasts ?_
    refine hxys.forall_of_everywhere hbefore (hsteps a (by rw [hsplit]; simp)) ?_ z hz
    rw [Store.grammar_run]
    exact fun ctx n m => reached_of_yields

namespace Node

/-- The node is no reachability result, or one of the mode. -/
def HasMode (mode : ProbeMode) : Node → Prop
  | .reachable _ mode' _ _ _ _ _ => mode' = mode
  | _ => True

instance (mode : ProbeMode) : DecidablePred (HasMode mode)
  | .reachable _ mode' _ _ _ _ _ => inferInstanceAs (Decidable (mode' = mode))
  | .leaf _ _ | .dict _ _ _ | .set _ _ _ | .predicate _ _ _ _ _ | .identity _ _ _
  | .claim _ _ _ _ _ _ | .verify _ _ _ => .isTrue trivial

theorem HasMode.keepsMode {mode : ProbeMode} {x y : Node} (hx : x.HasMode mode)
    (hy : y.HasMode mode) : KeepsMode x y := by
  cases x with
  | reachable e m vt vs ut uvs us =>
    cases y with
    | reachable e' m' vt' vs' ut' uvs' us' => exact Eq.trans hx (Eq.symm hy)
    | _ => trivial
  | _ => trivial

/-- Where all results have one mode no update changes it. -/
theorem Gathers.keepsMode {mode : ProbeMode} {a b x : Node} {ys : List Node}
    (h : Gathers x ys a [b]) (ha : a.Everywhere (HasMode mode)) (hb : b.Everywhere (HasMode mode)) :
    ToLast KeepsMode x ys := by
  have hall := h.of_everywhere
    (List.forall_mem_cons.2 ⟨ha, List.forall_mem_singleton.2 hb⟩)
  exact fun z hz => (hall z hz).keepsMode (hall _ List.getLastD_mem_cons)

end Node

/-- A dict with an address to be checked, in the mode that the named arguments ask for. -/
def oneChecked (named : List (Node × Node)) : Node :=
  .dict none "" [(ofString "at", .predicate none "reachable" [ofString "/tcp/1"] "" named)]

/-- An address that can be dialled is checked twice in the same way. -/
theorem verified_reached_run_dialled :
    ((Store.empty (standard.withProbe (.ofPredicate fun mode _ => mode == .dial)) {}).run
      [.write 0 ⟨"writerP"⟩ "k" (oneChecked []) {},
        .write 1 ⟨"writerP"⟩ "k" (oneChecked []) {}]).AllSlots fun d =>
      d.Everywhere (IsReached fun mode _ => mode == .dial) := by
  let s := (Store.empty (standard.withProbe (.ofPredicate fun mode _ => mode == .dial)) {}).run
    [.write 0 ⟨"writerP"⟩ "k" (oneChecked []) {}]
  have hslot : ∀ d ∈ s.slot? "k" ⟨"writerP"⟩, d.Everywhere (HasMode .dial) := by decide +kernel
  have hmade : ∀ m ∈ (s.grammar.assemble (s.writeContext 1 ⟨"writerP"⟩ {})
      (oneChecked [])).outcome.1.toOption, m.Everywhere (HasMode .dial) := by decide +kernel
  refine (verified_reached_run_iff (fun mode _ => mode == .dial) {} (by decide)).2.2 ?_ _ []
    (List.append_nil _).symm
  rintro before a after hsteps x ys ⟨_, _, _, _, _, _, old, m, rfl, _, hold, hm, hxys⟩
  obtain _ | ⟨first, _ | ⟨second, before⟩⟩ := before
  · cases hold
  · cases hsteps
    exact hxys.keepsMode (hslot old hold) (hmade m (toOption_eq_some.2 hm))
  · simp at hsteps

/-- The mode of the only result in a document and the number of addresses it lists. -/
def listing? : Node → Option (ProbeMode × Nat)
  | .dict _ _ [(_, .reachable _ mode _ vs _ _ [])] => some (mode, vs.length)
  | _ => none

theorem listing?_eq_some {n : Node} {mode : ProbeMode} {k : Nat} (h : listing? n = some (mode, k)) :
    ∃ e t key e' vt vs ut uvs,
      n = .dict e t [(key, .reachable e' mode vt vs ut uvs [])] ∧ vs.length = k := by
  unfold listing? at h
  split at h
  · cases h
    exact ⟨_, _, _, _, _, _, _, _, rfl, rfl⟩
  · cases h

/-- An address that can be dialled is checked again for a connection, which there is none. The
stored result lists the address as verified, and connection as its mode. -/
theorem not_verified_reached_run :
    ¬ ∀ (reaches : ProbeMode → Multiaddr → Bool) (steps : List Store.Step),
      (∀ a ∈ steps, a.Writes fun n => n.isPlain = true ∧ n.WellFormed) →
      ((Store.empty (standard.withProbe (.ofPredicate reaches)) {}).run steps).AllSlots fun d =>
        d.Everywhere (IsReached reaches) := by
  intro h
  have hslots := h (fun mode _ => mode == .dial)
    [.write 0 ⟨"writerP"⟩ "k" (oneChecked []) {},
      .write 1 ⟨"writerP"⟩ "k" (oneChecked [(ofString "check", ofString "connection")]) {}]
    (by decide) "k" ⟨"writerP"⟩
  have hslot : (((Store.empty (standard.withProbe (.ofPredicate fun mode _ => mode == .dial))
      {}).run [.write 0 ⟨"writerP"⟩ "k" (oneChecked []) {},
        .write 1 ⟨"writerP"⟩ "k" (oneChecked [(ofString "check", ofString "connection")])
          {}]).slot? "k" ⟨"writerP"⟩).bind listing? = some (.connection, 1) := by decide +kernel
  obtain ⟨d, hd, hlisting⟩ := Option.bind_eq_some_iff.1 hslot
  obtain ⟨e, t, key, e', vt, vs, ut, uvs, rfl, hlength⟩ := listing?_eq_some hlisting
  have hresult := (hslots _ hd).child
    (snd_mem_children (p := (key, .reachable e' .connection vt vs ut uvs [])) List.mem_cons_self)
  cases vs with
  | nil => cases hlength
  | cons v vs =>
    obtain ⟨_, _, _, _, haccepted⟩ := hresult.self v List.mem_cons_self
    cases haccepted

end PeerRecords
