import PeerRecords.Proofs.Claims
import PeerRecords.Proofs.Exchange.Answers
import PeerRecords.Proofs.Likewise
import PeerRecords.Proofs.Wire.RoundTrip

/-
  Writes that come in requests.
  A document that travels loses its expirations and the zeros its numbers were written with. Neither
  is seen by readers: through the view `reader` a document that is read matches the one that was
  written (`through_reader_of_matches`). So a request to write a document is answered as the write
  of the document itself would be, and readers are told the same after both; that is the main
  statement, at the end.
-/

namespace PeerRecords

open Node Grammar

/-! ## What readers see -/

/-- Literals up to equality. -/
def Leaf.setoid : Setoid Leaf where
  r v u := v.alike u = true
  iseqv := ⟨leaf_alike_refl, fun {v u} h => (leaf_alike_comm u v).trans h, leaf_alike_trans⟩

/-- One of the literals that are equal to a literal, the same for all of them. -/
noncomputable def Leaf.standard (v : Leaf) : Leaf := (Quotient.mk Leaf.setoid v).out

theorem Leaf.alike_standard (v : Leaf) : v.standard.alike v = true :=
  Quotient.mk_out (s := Leaf.setoid) v

theorem Leaf.standard_eq {v u : Leaf} (h : v.alike u = true) : v.standard = u.standard :=
  congrArg Quotient.out (Quotient.sound (s := Leaf.setoid) h)

/-- The view that sees all expirations, and literals up to equality. -/
noncomputable def View.reader : View := ⟨id, Leaf.standard, fun _ _ => rfl, Leaf.alike_standard⟩

namespace Node

/-- Trees that match look the same but for expirations. -/
theorem through_reader_of_matches {a b : Node} (h : Matches a b) :
    a.through View.reader.inside = b.through View.reader.inside := by
  have hall : ∀ {as bs : List Node}, List.Forall₂ Matches as bs →
      (∀ a ∈ as, ∀ {b}, Matches a b →
        a.through View.reader.inside = b.through View.reader.inside) →
      throughAll View.reader.inside as = throughAll View.reader.inside bs := by
    intro as bs hab ih
    rw [throughAll_eq_map, throughAll_eq_map]
    exact map_eq_of_forall₂ hab fun a ha b h => ih a ha h
  have hentries : ∀ {ps qs : List (Node × Node)}, List.Forall₂ MatchesEntry ps qs →
      (∀ p ∈ ps,
        (∀ {b}, Matches p.1 b → p.1.through View.reader.inside = b.through View.reader.inside) ∧
        ∀ {b}, Matches p.2 b → p.2.through View.reader.inside = b.through View.reader.inside) →
      throughEntries View.reader.inside ps = throughEntries View.reader.inside qs := by
    intro ps qs hpq ih
    rw [throughEntries_eq_map, throughEntries_eq_map]
    exact map_eq_of_forall₂ hpq fun p hp q h => Prod.ext ((ih p hp).1 h.1) ((ih p hp).2 h.2)
  induction a using Node.induct generalizing b with
  | leaf e v =>
    cases b with
    | leaf e' u => exact congrArg (leaf none) (Leaf.standard_eq h)
    | _ => exact h.elim
  | dict e t ps ih =>
    cases b with
    | dict e' u qs =>
      obtain ⟨rfl, hpq⟩ := matches_dict.1 h
      exact congrArg (dict none t) (hentries hpq ih)
    | _ => exact h.elim
  | set e t es ih =>
    cases b with
    | set e' u fs =>
      obtain ⟨rfl, hef⟩ := matches_set.1 h
      exact congrArg (set none t) (hall hef ih)
    | _ => exact h.elim
  | predicate e t as nt ps iha ihp =>
    cases b with
    | predicate e' u bs nu qs =>
      obtain ⟨rfl, hab, rfl, hpq⟩ := matches_predicate.1 h
      exact congrArg₂ (predicate none t · nt ·) (hall hab iha) (hentries hpq ihp)
    | _ => exact h.elim
  | identity e i us ih => exact h.elim
  | claim e a b s g us ihs ihu => exact h.elim
  | verify e s us ihs ihu => exact h.elim
  | reachable e m vt vs ut uvs us ihv ihn ihu => exact h.elim

/-! ## The same expirations -/

mutual

/-- In both trees there are equal values in dicts and equal elements in sets, as far as dicts and
sets reach, and they expire at the same times. -/
def ExpireAlike : Node → Node → Prop
  | .dict _ _ ps, .dict _ _ qs => EntriesExpireAlike ps qs
  | .set _ _ es, .set _ _ fs => AllExpireAlike es fs
  | a, b => a.kind = b.kind
termination_by structural a => a

/-- The nodes are equal and expire at the same times, one by one. -/
def AllExpireAlike : List Node → List Node → Prop
  | [], [] => True
  | a :: as, b :: bs =>
    (a.eqv b = true ∧ a.expiry = b.expiry ∧ ExpireAlike a b) ∧ AllExpireAlike as bs
  | _, _ => False
termination_by structural as => as

/-- The keys are equal, and the values are equal and expire at the same times, one by one. -/
def EntriesExpireAlike : List (Node × Node) → List (Node × Node) → Prop
  | [], [] => True
  | (k, v) :: ps, q :: qs =>
    k.eqv q.1 = true ∧ (v.eqv q.2 = true ∧ v.expiry = q.2.expiry ∧ ExpireAlike v q.2) ∧
      EntriesExpireAlike ps qs
  | _, _ => False
termination_by structural ps => ps

end

/-- Nodes that readers see alike are equal in their plain forms, and expire at the same time. -/
theorem eqv_and_expiry_of_through_eq {a b : Node} (hb : b.Everywhere HasDistinctKeys)
    (h : a.through .reader = b.through .reader) :
    a.disassemble.eqv b.disassemble = true ∧ a.disassemble.expiry = b.disassemble.expiry := by
  rw [eqv_disassemble, expiry_disassemble, expiry_disassemble]
  refine ⟨eqv_of_through_eq hb h, ?_⟩
  have hexpiry := congrArg Node.expiry h
  rw [expiry_through, expiry_through] at hexpiry
  exact hexpiry

/-- What readers see alike expires alike, in its plain form. -/
theorem expireAlike_of_through_eq {a b : Node} (hb : b.Everywhere HasDistinctKeys)
    (h : a.through .reader = b.through .reader) : ExpireAlike a.disassemble b.disassemble := by
  have hall : ∀ {as bs : List Node}, (∀ b ∈ bs, b.Everywhere HasDistinctKeys) →
      (∀ a ∈ as, ∀ {b : Node}, b.Everywhere HasDistinctKeys →
        a.through .reader = b.through .reader → ExpireAlike a.disassemble b.disassemble) →
      throughAll .reader as = throughAll .reader bs →
      AllExpireAlike (disassembleAll as) (disassembleAll bs) := by
    intro as bs hbs ih hab
    induction as generalizing bs with
    | nil =>
      cases bs with
      | nil => trivial
      | cons b bs => cases hab
    | cons a as ihas =>
      cases bs with
      | nil => cases hab
      | cons b bs =>
        obtain ⟨hhead, htail⟩ := List.cons.inj hab
        obtain ⟨hb, hbs⟩ := List.forall_mem_cons.1 hbs
        obtain ⟨ha, has⟩ := List.forall_mem_cons.1 ih
        obtain ⟨heqv, hexpiry⟩ := eqv_and_expiry_of_through_eq hb hhead
        exact ⟨⟨heqv, hexpiry, ha hb hhead⟩, ihas hbs has htail⟩
  have hentries : ∀ {ps qs : List (Node × Node)},
      (∀ q ∈ qs, q.1.Everywhere HasDistinctKeys ∧ q.2.Everywhere HasDistinctKeys) →
      (∀ p ∈ ps, ∀ {b : Node}, b.Everywhere HasDistinctKeys →
        p.2.through .reader = b.through .reader → ExpireAlike p.2.disassemble b.disassemble) →
      throughEntries .reader ps = throughEntries .reader qs →
      EntriesExpireAlike (disassembleEntries ps) (disassembleEntries qs) := by
    intro ps qs hqs ih hpq
    induction ps generalizing qs with
    | nil =>
      cases qs with
      | nil => trivial
      | cons q qs => cases hpq
    | cons p ps ihps =>
      cases qs with
      | nil => cases hpq
      | cons q qs =>
        obtain ⟨k, v⟩ := p
        obtain ⟨l, u⟩ := q
        obtain ⟨hhead, htail⟩ := List.cons.inj hpq
        obtain ⟨hk, hv⟩ := Prod.mk.inj hhead
        obtain ⟨hq, hqs⟩ := List.forall_mem_cons.1 hqs
        obtain ⟨hp, hps⟩ := List.forall_mem_cons.1 ih
        obtain ⟨heqv, hexpiry⟩ := eqv_and_expiry_of_through_eq hq.2 hv
        exact ⟨(eqv_and_expiry_of_through_eq hq.1 hk).1, ⟨heqv, hexpiry, hp hq.2 hv⟩,
          ihps hqs hps htail⟩
  induction a using Node.induct generalizing b with
  | leaf e v =>
    cases b with
    | leaf e' u =>
      have hkind := congrArg kind h
      show v.kind = u.kind
      rw [← View.kind_leaf .reader v, ← View.kind_leaf .reader u]
      exact hkind
    | _ => cases h
  | dict e t ps ih =>
    cases b with
    | dict e' u qs =>
      obtain ⟨-, rfl, hpq⟩ := Node.dict.inj h
      exact hentries (everywhere_dict.1 hb).2 (fun p hp => (ih p hp).2) hpq
    | _ => cases h
  | set e t es ih =>
    cases b with
    | set e' u fs =>
      obtain ⟨-, rfl, hef⟩ := Node.set.inj h
      exact hall (everywhere_set.1 hb).2 ih hef
    | _ => cases h
  | predicate e t as nt ps iha ihp =>
    cases b with
    | predicate e' u bs nu qs => rfl
    | _ => cases h
  | identity e i us ih =>
    cases b with
    | identity e' j us' => rfl
    | _ => cases h
  | claim e a b s g us ihs ihu =>
    cases b with
    | claim e' a' b' s' g' us' => rfl
    | _ => cases h
  | verify e s us ihs ihu =>
    cases b with
    | verify e' s' us' => rfl
    | _ => cases h
  | reachable e m vt vs ut uvs us ihv ihn ihu =>
    cases b with
    | reachable e' m' vt' vs' ut' uvs' us' => rfl
    | _ => cases h

end Node

/-! ## Requests to write -/

/-- What a write asks for whose nodes live for that many seconds; zero leaves it to the store. -/
def WriteOptions.ofTtl (ttl : Nat) : WriteOptions :=
  if ttl = 0 then {} else .lasting (.ofSeconds ttl)

namespace Store

/-- Readers are told the same of both stores: under every key documents of the same writers, which
are equal and whose parts expire at the same times. -/
def ReadsAndExpiresLike (s s' : Store) : Prop :=
  ∀ key writer, Option.Rel
    (fun d d' : Dict => (d.toNode none).eqv (d'.toNode none) = true ∧
      ExpireAlike (d.toNode none) (d'.toNode none))
    ((s.get key).get? writer) ((s'.get key).get? writer)

/-- Stores that look the same to readers tell them the same. -/
theorem LooksLike.reads {s s' : Store} (h : s.LooksLike .reader s')
    (hs : s'.AllSlots fun d => d.Everywhere HasDistinctKeys) : s.ReadsAndExpiresLike s' := by
  intro key writer
  have hslot := h key writer
  rw [get?_get, get?_get]
  cases ha : s.slot? key writer with
  | none =>
    rw [eq_none_of_map_through_eq hslot ha]
    exact .none
  | some a =>
    obtain ⟨b, hb, hab⟩ := exists_of_map_through_eq hslot ha
    rw [hb]
    refine rel_visible? (fun e e' t ps qs heq heq' hentries => ?_) hab
    subst heq heq'
    have hkeys := (hs key writer _ hb).withExpiry hasDistinctKeys_withExpiry none
    have hnode : (Node.dict none t ps).through .reader = (Node.dict none t qs).through .reader :=
      congrArg (Node.dict none t) hentries
    exact ⟨(eqv_and_expiry_of_through_eq hkeys hnode).1, expireAlike_of_through_eq hkeys hnode⟩

/-- A request to write a document that fits is answered as the write of what is read of it. -/
theorem answer_update {doc m : Node} (hm : unmarshal doc.marshal = .ok m) (s : Store)
    (now : Instant) (writer : PeerId) (id : Uuid) (key : String) (ttl : Nat) :
    ((s.answer now writer (.update id key doc ttl) none).response.status = .ok ↔
      ∃ s', (s.update now writer key m (.ofTtl ttl)).1 = .ok s') ∧
    (s.answer now writer (.update id key doc ttl) none).store =
      s.step (.write now writer key m (.ofTtl ttl)) := by
  have hoptions : requestOptions now (.update id key doc ttl) none = .ofTtl ttl := by
    cases ttl <;> rfl
  rw [← hoptions]
  refine ⟨?_, store_answer_update rfl (Utf8.text?_bytes key) hm s now writer none⟩
  simp only [answer, attempt, Request.update, Utf8.text?_bytes, hm]
  generalize s.update now writer key m _ = outcome
  obtain ⟨result, calls⟩ := outcome
  cases result <;> simp [Except.map]

end Store

/-- A request to write a plain document is answered with success exactly when the write of the
document itself succeeds, in every state of every run of writes and sweeps over a grammar without
rules of its own, and readers are told the same after both. -/
theorem answer_update_agrees {g : Grammar} (hg : g.IsStock) (config : StoreSettings)
    {steps : List Store.Step}
    (hsteps : ∀ a ∈ steps, a.Writes fun n => n.Everywhere HasDistinctKeys) {doc : Node}
    (hplain : doc.isPlain = true) (hdoc : doc.WellFormed) (huntagged : doc.Everywhere IsUntagged)
    (hlimit : doc.nesting ≤ Json.nestingLimit) (now : Instant) (writer : PeerId) (id : Uuid)
    (key : String) (ttl : Nat) :
    let s := (Store.empty g config).run steps
    let answered := s.answer now writer (.update id key doc ttl) none
    (answered.response.status = .ok ↔
      ∃ s', (s.update now writer key doc (.ofTtl ttl)).1 = .ok s') ∧
    answered.store.ReadsAndExpiresLike (s.step (.write now writer key doc (.ofTtl ttl))) := by
  intro s answered
  have hgrammar : s.grammar.IsStock := by
    rw [Store.grammar_run]
    exact hg
  obtain ⟨m, hm, -, -, -, hmatch⟩ := marshal_travels hdoc huntagged hlimit
  rw [disassemble_of_isPlain hplain] at hmatch
  have hlook := through_reader_of_matches hmatch
  obtain ⟨hstatus, hstore⟩ := s.answer_update hm now writer id key ttl
  refine ⟨hstatus.trans (Store.update_ok_iff hgrammar hlook.symm now writer key _), ?_⟩
  have hwrites : ∀ a ∈ steps ++ [.write now writer key doc (.ofTtl ttl)],
      a.Writes fun n => n.Everywhere HasDistinctKeys := by
    refine List.forall_mem_append.2 ⟨hsteps, List.forall_mem_singleton.2 ?_⟩
    exact hdoc.distinctKeys
  have hkeys := Store.distinctKeys_run hg config hwrites
  rw [Store.run_append_singleton] at hkeys
  rw [hstore]
  exact (Store.looksLike_step hgrammar hlook.symm now writer key _).reads hkeys

/-- A note with a number that is written with a zero, expirations, an address to be checked and a
statement to be signed. -/
def pricedNote : Node :=
  .dict (some 3) ""
    [(ofString "price", .leaf (some 9) (.float ⟨⟨150, 2⟩, by decide⟩)),
      (ofString "tags", .set none "" [ofString "b", .leaf (some 5) (.string "a")]),
      (ofString "at",
        .predicate none "reachable" [.leaf (some 7) (.string "/ip4/10.0.0.1/tcp/1")] "" []),
      (ofString "said", .predicate none "sign" [.leaf none (.float ⟨⟨20, 1⟩, by decide⟩)] "" [])]

/-- A grammar with a keyring, in a network that reaches every address. -/
def reachingGrammar : Grammar :=
  (standard.withKeyring localKeyring).withProbe (.ofPredicate fun _ _ => true)

/-- A request to write the note over the one of before is answered with success. -/
theorem answer_pricedNote :
    let s := (Store.empty reachingGrammar {}).run
      [.write 0 ⟨"writerP"⟩ "k" pricedNote {}, .sweep 50]
    let answered := s.answer 60 ⟨"writerP"⟩ (.update ⟨0⟩ "k" pricedNote 30) none
    answered.response.status = .ok ∧
      answered.store.ReadsAndExpiresLike
        (s.step (.write 60 ⟨"writerP"⟩ "k" pricedNote (.lasting (.ofSeconds 30)))) := by
  have hg : reachingGrammar.IsStock := (isStock_standard.withKeyring localKeyring).withProbe _
  have hdoc : pricedNote.WellFormed := by decide
  have huntagged : pricedNote.Everywhere IsUntagged := by decide
  have hwrites : ∀ a ∈ [Store.Step.write 0 ⟨"writerP"⟩ "k" pricedNote {}, .sweep 50],
      a.Writes fun n => n.Everywhere HasDistinctKeys :=
    List.forall_mem_cons.2 ⟨hdoc.distinctKeys, List.forall_mem_singleton.2 trivial⟩
  have hsucceeds : (((Store.empty reachingGrammar {}).run
      [.write 0 ⟨"writerP"⟩ "k" pricedNote {}, .sweep 50]).update 60 ⟨"writerP"⟩ "k" pricedNote
        (.ofTtl 30)).1.isOk = true := by decide +kernel
  obtain ⟨hstatus, hreads⟩ := answer_update_agrees hg {} hwrites (by decide) hdoc huntagged
    (by decide +kernel) 60 ⟨"writerP"⟩ ⟨0⟩ "k" 30
  refine ⟨hstatus.2 ?_, hreads⟩
  cases hs : (Store.update _ _ _ _ _ _).1 with
  | ok s' => exact ⟨s', rfl⟩
  | error e =>
    rw [hs] at hsucceeds
    cases hsucceeds

end PeerRecords
