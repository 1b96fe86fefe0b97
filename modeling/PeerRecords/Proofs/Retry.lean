import PeerRecords.Proofs.Claims
import PeerRecords.Proofs.Idempotence
import PeerRecords.Proofs.Likewise
import PeerRecords.Proofs.Store.Isolation

/-
  Writes that are repeated.
  In two contexts that ask the probe alike a grammar without rules of its own makes the same of a
  document, but for expirations (`IsStock.leads_assemble_again`). What it makes of a plain document
  is absorbed by updates (`isAbsorbed_of_yields`). So a write that succeeded does so again, and
  readers are told the same after it; that is the main statement, at the end.
-/

namespace PeerRecords

open Node Assembly Grammar

/-! ## Assembling the same document again -/

namespace Grammar

variable {g : Grammar} {ctx ctx' : Context}

/-- In contexts that ask alike the same is made of a document, but for expirations. -/
theorem IsStock.leads_assemble_again (hg : g.IsStock) (h : ctx.AsksLike ctx') (n : Node) :
    (g.assemble ctx n).Leads (fun m m' => m.timeless = m'.timeless) (g.assemble ctx' n) := by
  have hleads := hg.leads_assemble h (w := .blank) rfl (n := n) rfl
  simp only [through_blank] at hleads
  exact hleads

/-- Nothing that was left unverified is verified, in what is made of a plain document. -/
theorem outstanding_of_yields (hg : g.IsStock) {n m : Node} (hplain : n.isPlain = true)
    (h : (g.assemble ctx n).Yields m) : m.Everywhere IsOutstanding := by
  have hsmart : ∀ v : Node, v.isSmart = false → v.IsOutstanding := by
    intro v hv
    cases v with
    | reachable e m vt vs ut uvs us => cases hv
    | _ => trivial
  refine everywhere_of_yields ?_ (fun x _ => everywhere_disassemble hsmart x) ?_
    (fun s => trivial) (hg.upholds _) (isPlain_iff.1 hplain) h
  · intro n m hn hm
    cases hm with
    | reachable hp hps hcandidates hfound hus =>
      refine ⟨by simp [outstanding, List.filter_filter], fun c hc => ?_⟩
      obtain ⟨x, hx, rfl⟩ := hfound.unverified c (List.mem_filter.1 hc).1
      have hxn := hn x (hcandidates x hx)
      cases x <;> first | rfl | cases hxn
    | own rule hrule => exact absurd hrule (hg rule)
    | _ => trivial
  · intro x _ hx
    refine (hx.mono hsmart).withExpiry (fun e n hn => ?_) ctx.expiry
    cases n <;> exact hn

/-- What is made of a plain document is absorbed by updates, but for expirations. -/
theorem isAbsorbed_of_yields (hg : g.IsStock) {n m : Node} (hplain : n.isPlain = true)
    (hn : n.Everywhere HasDistinctKeys) (h : (g.assemble ctx n).Yields m) :
    m.timeless.IsAbsorbed := by
  have hm := distinctKeys_of_yields (hg.upholds _) hn h
  refine isAbsorbed ?_ (hm.timeless fun v _ => expiry_timeless v) ?_
  · exact hm.timeless fun v hv => hv.timeless
  · exact (outstanding_of_yields hg hplain h).timeless fun v hv => hv.timeless

end Grammar

/-! ## What readers are told -/

namespace Store

/-- Readers are told the same of both stores: under every key documents of the same writers, which
are structurally equal. -/
def ReadsLike (s s' : Store) : Prop :=
  ∀ key writer, Option.Rel (fun d d' : Dict => (d.toNode none).eqv (d'.toNode none) = true)
    ((s.get key).get? writer) ((s'.get key).get? writer)

/-- Documents that are the same but for expirations look the same to readers. -/
theorem rel_visible?_of_timeless_eq {a b : Node} (hb : b.Everywhere HasDistinctKeys)
    (h : a.timeless = b.timeless) :
    Option.Rel (fun d d' : Dict => (d.toNode none).eqv (d'.toNode none) = true) (visible? a)
      (visible? b) := by
  rw [← through_blank, ← through_blank] at h
  refine rel_visible? (fun e e' t ps qs ha hb' hentries => ?_) h
  subst ha hb'
  have hsame : (Node.dict none t ps).eqv (.dict none t qs) = true :=
    eqv_of_through_eq (w := .blank) (hb.withExpiry hasDistinctKeys_withExpiry none)
      (congrArg (Node.dict none t) hentries)
  rw [← eqv_disassemble] at hsame
  exact hsame

theorem eqv_of_update_timeless {m : Node} (hm : m.Everywhere HasDistinctKeys)
    (h : m.timeless.update m.timeless = .ok m.timeless) :
    ∃ r, m.update m = .ok r ∧ r.eqv m = true := by
  rw [← map_timeless_update] at h
  obtain ⟨r, hr, heq⟩ := map_eq_ok.1 h
  exact ⟨r, hr, eqv_of_timeless_eq hm heq⟩

/-- A document folded into a slot again changes nothing but expirations, if it is absorbed. -/
theorem update_of_folded {old : Option Node} {m m' r : Node} (hm : m.timeless.IsAbsorbed)
    (hmm : m.timeless = m'.timeless) (h : folded old m = .ok r) :
    ∃ r', r.update m' = .ok r' ∧ r'.timeless = r.timeless := by
  have hagain : r.timeless.update m.timeless = .ok r.timeless := by
    unfold folded at h
    split at h
    · rename_i a
      refine hm.2 a.timeless r.timeless ?_
      rw [← map_timeless_update, h]
      rfl
    · cases h
      exact hm.1
  rw [hmm, ← map_timeless_update] at hagain
  exact map_eq_ok.1 hagain

/-- The contexts of two writes of one writer ask alike, if the deadline is over in both or in
neither. -/
theorem asksLike_writeContext (s s' : Store) {now now' : Instant} (writer : PeerId)
    {options : WriteOptions} (hlate : ∀ d ∈ options.deadline, d ≤ now ↔ d ≤ now') :
    (s.writeContext now writer options).AsksLike (s'.writeContext now' writer options) := by
  refine ⟨?_, rfl, rfl⟩
  show (options.deadline.any fun d => decide (d ≤ now)) =
    options.deadline.any fun d => decide (d ≤ now')
  cases hd : options.deadline with
  | none => rfl
  | some d => exact decide_eq_decide.2 (hlate d hd)

/-- Storing what is the same but for expirations tells readers the same. -/
theorem readsLike_put {s : Store} {key : String} {writer : PeerId} {r r' : Node}
    (hs : s.AllSlots fun d => d.Everywhere HasDistinctKeys) (hr : s.slot? key writer = some r)
    (h : r'.timeless = r.timeless) : (s.put key writer r').ReadsLike s := by
  intro k w
  rw [get?_get, get?_get, slot?_put]
  split
  · rename_i heq
    obtain ⟨rfl, rfl⟩ := heq
    rw [hr]
    exact rel_visible?_of_timeless_eq (hs _ _ r hr) h
  · cases hd : s.slot? k w with
    | none => exact .none
    | some d => exact rel_visible?_of_timeless_eq (hs k w d hd) rfl

/-- A write of what has been written just now. -/
theorem exists_update_again {s s' : Store} (hg : s.grammar.IsStock)
    (hdistinct : s'.AllSlots fun d => d.Everywhere HasDistinctKeys) {doc : Node}
    (hplain : doc.isPlain = true) (hdoc : doc.Everywhere HasDistinctKeys) {now now' : Instant}
    {writer : PeerId} {key : String} {options : WriteOptions}
    (hlate : ∀ d ∈ options.deadline, d ≤ now ↔ d ≤ now')
    (h : (s.update now writer key doc options).1 = .ok s') :
    ∃ s'', s'.update now' writer key doc options =
        (.ok s'', (s.update now writer key doc options).2) ∧ s''.ReadsLike s' := by
  obtain ⟨m, r, hm, ⟨e, t, ps, rfl⟩, hr, rfl⟩ := update_eq_ok h
  obtain ⟨m', hm', hmm⟩ := hg.leads_assemble_again
    (asksLike_writeContext s (s.put key writer r) writer hlate) doc [] _ _ (Prod.ext hm rfl)
  obtain ⟨r', hr', hrr⟩ := update_of_folded
    (Grammar.isAbsorbed_of_yields hg hplain hdoc (.of_outcome hm)) hmm hr
  have hslot : (s.put key writer r).slot? key writer = some r := by
    rw [slot?_put, if_pos ⟨rfl, rfl⟩]
  refine ⟨(s.put key writer r).put key writer r', ?_, readsLike_put hdistinct hslot hrr⟩
  have haccepted : accepted (some r) m' = .ok r' := by
    cases m' with
    | dict e' t' qs => exact hr'
    | _ => cases hmm
  have hwritten : written s.grammar ((s.put key writer r).writeContext now' writer options)
      (some r) doc = (.ok r', (s.update now writer key doc options).2) := by
    rw [written, outcome, hm']
    exact Prod.ext haccepted rfl
  rw [update_eq, grammar_put, hslot, hwritten]
  rfl

end Store

/-- A write of a plain document that succeeded succeeds again, with the same calls to the probe,
and readers are told the same after it; this is so in every state of every run of writes and
sweeps over a grammar without rules of its own, unless the deadline passes in between. And what
is assembled of the document can be folded into itself, which changes nothing. Of documents it
is asked that no key repeats, as no dict can hold two equal keys; elements of sets may repeat,
as they may after sweeps. -/
theorem retry_reads_like {g : Grammar} (hg : g.IsStock) (config : StoreSettings)
    {steps : List Store.Step}
    (hsteps : ∀ a ∈ steps, a.Writes fun n => n.Everywhere HasDistinctKeys) {doc : Node}
    (hplain : doc.isPlain = true) (hdoc : doc.Everywhere HasDistinctKeys) :
    (∀ (now now' : Instant) (writer : PeerId) (key : String) (options : WriteOptions) (s : Store),
      (∀ d ∈ options.deadline, d ≤ now ↔ d ≤ now') →
      (((Store.empty g config).run steps).update now writer key doc options).1 = .ok s →
      ∃ s', s.update now' writer key doc options =
          (.ok s', (((Store.empty g config).run steps).update now writer key doc options).2) ∧
        s'.ReadsLike s) ∧
    ∀ ctx m, (g.assemble ctx doc).outcome.1 = .ok m → ∃ r, m.update m = .ok r ∧ r.eqv m = true := by
  constructor
  · intro now now' writer key options s hlate h
    have hgrammar : ((Store.empty g config).run steps).grammar.IsStock := by
      rw [Store.grammar_run]
      exact hg
    refine Store.exists_update_again hgrammar ?_ hplain hdoc hlate h
    have hwrites : ∀ a ∈ steps ++ [.write now writer key doc options],
        a.Writes fun n => n.Everywhere HasDistinctKeys :=
      List.forall_mem_append.2 ⟨hsteps, List.forall_mem_singleton.2 hdoc⟩
    have hrun := Store.distinctKeys_run hg config hwrites
    rw [Store.run_append_singleton, Store.step, h] at hrun
    exact hrun
  · intro ctx m hm
    have hkeys := distinctKeys_of_yields (hg.upholds _) hdoc (.of_outcome hm)
    exact Store.eqv_of_update_timeless hkeys
      (Grammar.isAbsorbed_of_yields hg hplain hdoc (.of_outcome hm)).1

/-- A note with a set as sweeps leave it, in which an element repeats, and with two addresses to be
checked. -/
def checkedNote : Node :=
  .dict none "" [(ofString "seen", .set none "" [.dict none "" [], .dict none "" []]),
    (ofString "at", .predicate none "reachable"
      [ofString "/ip4/10.0.0.1/tcp/1", ofString "/ip4/10.0.0.2/tcp/1"] "" [])]

/-- The network reaches one address. -/
def oneAddress : Probe := .ofPredicate fun _ addr => addr.text == "/ip4/10.0.0.1/tcp/1"

/-- The note is written, swept, written anew and at once written again. -/
theorem retry_checkedNote :
    ∃ s s' : Store,
      (((Store.empty ((standard.withKeyring localKeyring).withProbe oneAddress) {}).run
        [.write 0 ⟨"writerP"⟩ "k" checkedNote (.lasting 100), .sweep 50]).update 60 ⟨"writerP"⟩ "k"
          checkedNote {}).1 = .ok s ∧
      (s.update 61 ⟨"writerP"⟩ "k" checkedNote {}).1 = .ok s' ∧ s'.ReadsLike s := by
  have hg := (isStock_standard.withKeyring localKeyring).withProbe oneAddress
  have hdoc : checkedNote.Everywhere HasDistinctKeys := by decide
  have hsucceeds : (((Store.empty ((standard.withKeyring localKeyring).withProbe oneAddress) {}).run
      [.write 0 ⟨"writerP"⟩ "k" checkedNote (.lasting 100), .sweep 50]).update 60 ⟨"writerP"⟩ "k"
        checkedNote {}).1.isOk = true := by decide +kernel
  have hwrites : ∀ a ∈ [Store.Step.write 0 ⟨"writerP"⟩ "k" checkedNote (.lasting 100), .sweep 50],
      a.Writes fun n => n.Everywhere HasDistinctKeys := by
    simp [Store.Step.Writes, hdoc]
  generalize hfirst : (((Store.empty ((standard.withKeyring localKeyring).withProbe oneAddress)
    {}).run _).update 60 ⟨"writerP"⟩ "k" checkedNote {}).1 = first at hsucceeds ⊢
  cases first with
  | error e => cases hsucceeds
  | ok s =>
    obtain ⟨s', hs', hreads⟩ := (retry_reads_like hg {} hwrites (by decide) hdoc).1 60 61 _ _ _ s
      (fun d hd => by cases hd) hfirst
    exact ⟨s, s', rfl, by rw [hs'], hreads⟩

end PeerRecords
