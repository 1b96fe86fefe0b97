import PeerRecords.Exchange.Answer
import PeerRecords.Proofs.Exchange.Documents
import PeerRecords.Proofs.Store.Runs

/-
  Answers that are read back.
  A store that has served nothing but requests of valid writers holds documents that are sendable
  in their plain form, under valid writers only (`readable_served`). So what it answers is read as
  what it holds exactly when all documents of the key fit (`answer_holds_iff`): the main statement,
  for the documents of a key and for each projection of them.
-/

namespace PeerRecords

open Node

/-! ## Requests that are served -/

/-- A request as it reaches a store. -/
structure Arrival where
  now : Instant
  writer : PeerId
  request : Request
  timeout : Option Duration := none

namespace Store

/-- The store after requests that arrive one after the other. -/
def served (s : Store) (arrivals : List Arrival) : Store :=
  arrivals.foldl (fun s a => (s.answer a.now a.writer a.request a.timeout).store) s

/-- A request to write a document that can be read from its value writes that document. -/
theorem store_answer_update {request : Request} {key : String} {doc : Node}
    (hop : request.operation = .update) (hkey : Utf8.text? request.key = some key)
    (hdoc : unmarshal request.value = .ok doc) (s : Store) (now : Instant) (writer : PeerId)
    (timeout : Option Duration) :
    (s.answer now writer request timeout).store =
      s.step (.write now writer key doc (requestOptions now request timeout)) := by
  simp only [answer, attempt, hop, hkey, hdoc, step]
  cases (s.update now writer key doc (requestOptions now request timeout)).1 with
  | error e => rfl
  | ok s' => rfl

/-- A request leaves the store as it is, or writes a document that could be read from its value. -/
theorem store_answer (s : Store) (now : Instant) (writer : PeerId) (request : Request)
    (timeout : Option Duration) :
    (s.answer now writer request timeout).store = s ∨
      ∃ key doc, unmarshal request.value = .ok doc ∧
        (s.answer now writer request timeout).store =
          s.step (.write now writer key doc (requestOptions now request timeout)) := by
  cases hkey : Utf8.text? request.key with
  | none => exact .inl (by simp only [answer, attempt, hkey])
  | some key =>
    cases hop : request.operation with
    | get => exact .inl (by simp only [answer, attempt, hkey, hop])
    | query =>
      refine .inl ?_
      simp only [answer, attempt, hkey, hop]
      cases s.answerQuery key request.value with
      | error e => rfl
      | ok value => rfl
    | update =>
      cases hdoc : unmarshal request.value with
      | error e => exact .inl (by simp only [answer, attempt, hkey, hop, hdoc])
      | ok doc => exact .inr ⟨key, doc, rfl, store_answer_update hop hkey hdoc s now writer timeout⟩

/-- Every slot is a valid writer's, and its document is sendable in its plain form. -/
def Readable (s : Store) : Prop :=
  ∀ key writer d, s.slot? key writer = some d →
    writer.Valid ∧ d.WellFormed ∧ d.Everywhere IsUntagged

/-- Writing a document that was read keeps a store readable. -/
theorem readable_step {s : Store} (hs : s.Readable)
    (hwell : s.grammar.Upholds fun _ n m => n.WellFormed → m.WellFormed)
    (huntagged : s.grammar.Upholds fun _ n m => n.Everywhere IsUntagged → m.Everywhere IsUntagged)
    (now : Instant) {writer : PeerId} (hwriter : writer.Valid) (key : String) {doc : Node}
    (hdoc : doc.Sendable) (options : WriteOptions) :
    (s.step (.write now writer key doc options)).Readable := by
  intro k w d h
  obtain h | ⟨now', doc', options', m, ha, hm, hd⟩ | ⟨now', old, ha, _⟩ := slot?_step h
  · exact hs k w d h
  · cases ha
    have hmWell := Grammar.wellFormed_of_yields hwell hdoc.tidy.2 hm
    have hmUntagged := Grammar.untagged_of_yields huntagged hdoc.untagged hm
    unfold folded at hd
    split at hd
    · rename_i old hold
      obtain ⟨_, holdWell, holdUntagged⟩ := hs key writer old hold
      exact ⟨hwriter, holdWell.update hmWell hd, untagged_update holdUntagged hmUntagged hd⟩
    · cases hd
      exact ⟨hwriter, hmWell, hmUntagged⟩
  · cases ha

/-- A store that serves requests of valid writers stays readable. -/
theorem readable_served {s : Store} (hs : s.Readable)
    (hwell : s.grammar.Upholds fun _ n m => n.WellFormed → m.WellFormed)
    (huntagged : s.grammar.Upholds fun _ n m => n.Everywhere IsUntagged → m.Everywhere IsUntagged)
    {arrivals : List Arrival} (hvalid : ∀ a ∈ arrivals, a.writer.Valid) :
    (s.served arrivals).Readable := by
  induction arrivals generalizing s with
  | nil => exact hs
  | cons a arrivals ih =>
    have hrest := fun b hb => hvalid b (List.mem_cons_of_mem _ hb)
    obtain h | ⟨key, doc, hdoc, h⟩ := s.store_answer a.now a.writer a.request a.timeout
    · rw [served, List.foldl_cons, h]
      exact ih hs hwell huntagged hrest
    · have hstep := readable_step hs hwell huntagged a.now (hvalid a List.mem_cons_self) key
        (sendable_of_unmarshal hdoc) (requestOptions a.now a.request a.timeout)
      rw [served, List.foldl_cons, h]
      refine ih hstep ?_ ?_ hrest
      · rw [grammar_step]
        exact hwell
      · rw [grammar_step]
        exact huntagged

/-! ## What readers see -/

/-- What readers see of a slot. -/
theorem mem_get {s : Store} {key : String} {w : PeerId × Dict} (h : w ∈ (s.get key).entries) :
    ∃ doc, s.slot? key w.1 = some doc ∧ visible? doc = some w.2 := by
  obtain ⟨p, hp, hpw⟩ := List.mem_filterMap.1 h
  obtain ⟨d, hd, rfl⟩ := Option.map_eq_some_iff.1 hpw
  exact ⟨p.2, Table.get?_of_mem hp, hd⟩

theorem sendable_visible? {doc : Node} {d : Dict} (hwell : doc.WellFormed)
    (huntagged : doc.Everywhere IsUntagged) (h : visible? doc = some d) :
    (d.toNode none).Sendable := by
  have hsend := sendable_disassemble hwell huntagged
  cases doc with
  | dict e t ps =>
    unfold visible? at h
    rw [dict?, Option.bind_some] at h
    split at h
    · cases h
    · cases h
      exact Dict.sendable_dict_iff.2 (Dict.sendable_dict_iff.1 hsend)
  | _ => cases h

/-- Readers of a readable store see sendable documents of valid writers. -/
theorem Readable.get {s : Store} (hs : s.Readable) {key : String} {w : PeerId × Dict}
    (h : w ∈ (s.get key).entries) : w.1.Valid ∧ (w.2.toNode none).Sendable := by
  obtain ⟨doc, hslot, hvisible⟩ := mem_get h
  obtain ⟨hwriter, hwell, huntagged⟩ := hs key w.1 doc hslot
  exact ⟨hwriter, sendable_visible? hwell huntagged hvisible⟩

theorem Readable.query {s : Store} (hs : s.Readable) {key : String} {sel : Dict}
    (hsel : (sel.toNode none).Sendable) {w : PeerId × Dict}
    (h : w ∈ (s.query key sel).entries) : w.1.Valid ∧ (w.2.toNode none).Sendable := by
  obtain ⟨v, hv, hvw⟩ := List.mem_filterMap.1 h
  obtain ⟨d, hd, rfl⟩ := Option.map_eq_some_iff.1 hvw
  cases hd
  obtain ⟨hwriter, hsend⟩ := hs.get hv
  exact ⟨hwriter, Dict.sendable_project hsend hsel⟩

/-! ## What is answered -/

/-- The response is read as the documents exactly when all of them fit, and otherwise fails. -/
def HoldsFitting (r : Response) (docs : Table PeerId Dict) : Prop :=
  (r.Holds docs ↔ ∀ w ∈ docs.entries, w.2.Fits) ∧ (¬ r.Holds docs → r.documents = .error .format)

theorem holdsFitting_writeDocuments {docs : Table PeerId Dict} (id : Uuid)
    (h : ∀ w ∈ docs.entries, w.1.Valid ∧ (w.2.toNode none).Sendable) :
    HoldsFitting ⟨id, .ok, writeDocuments docs⟩ docs := by
  obtain ⟨hfit, hlarge⟩ :=
    documents_writeDocuments id (fun w hw => (h w hw).1) fun w hw => (h w hw).2
  by_cases hall : ∀ w ∈ docs.entries, w.2.Fits
  · exact ⟨⟨fun _ => hall, fun _ => hfit hall⟩, fun hn => absurd (hfit hall) hn⟩
  · have herror := hlarge (by simpa using hall)
    refine ⟨⟨fun ⟨read, hok, _⟩ => ?_, fun h => absurd h hall⟩, fun _ => herror⟩
    rw [herror] at hok
    cases hok

theorem answer_get (s : Store) (now : Instant) (writer : PeerId) (id : Uuid) (key : String)
    (timeout : Option Duration) :
    (s.answer now writer (.get id key) timeout).response =
      ⟨id, .ok, writeDocuments (s.get key)⟩ := by
  unfold answer attempt Request.get
  rw [Utf8.text?_bytes]

theorem answer_query (s : Store) (now : Instant) (writer : PeerId) (id : Uuid) (key : String)
    {value : List UInt8} {sel : Dict} (hsel : (unmarshal value).bind requireDict = .ok sel)
    (ttl : Nat) (timeout : Option Duration) :
    (s.answer now writer ⟨id, .query, Utf8.bytes key, value, ttl⟩ timeout).response =
      ⟨id, .ok, writeDocuments (s.query key sel)⟩ := by
  have hanswer : s.answerQuery key value = .ok (writeDocuments (s.query key sel)) := by
    obtain ⟨n, hn, hd⟩ := bind_eq_ok.1 hsel
    rw [answerQuery, hn]
    exact bind_eq_ok.2 ⟨n, rfl, bind_eq_ok.2 ⟨sel, hd, rfl⟩⟩
  unfold answer attempt
  rw [Utf8.text?_bytes]
  dsimp only
  rw [hanswer]
  rfl

theorem sendable_of_requireDict {n : Node} {d : Dict} (hn : n.Sendable)
    (h : n.requireDict = .ok d) : (d.toNode none).Sendable := by
  cases n with
  | dict e t ps =>
    cases h
    exact Dict.sendable_dict_iff.2 (Dict.sendable_dict_iff.1 hn)
  | _ => cases h

theorem Readable.holdsFitting_get {s : Store} (hs : s.Readable) (now : Instant) (writer : PeerId)
    (id : Uuid) (key : String) (timeout : Option Duration) :
    HoldsFitting (s.answer now writer (.get id key) timeout).response (s.get key) := by
  rw [answer_get]
  exact holdsFitting_writeDocuments id fun w hw => hs.get hw

theorem Readable.holdsFitting_query {s : Store} (hs : s.Readable) (now : Instant)
    (writer : PeerId) (id : Uuid) (key : String) {value : List UInt8} {sel : Dict}
    (hsel : (unmarshal value).bind requireDict = .ok sel) (ttl : Nat)
    (timeout : Option Duration) :
    HoldsFitting
      (s.answer now writer ⟨id, .query, Utf8.bytes key, value, ttl⟩ timeout).response
      (s.query key sel) := by
  obtain ⟨n, hn, hd⟩ := bind_eq_ok.1 hsel
  rw [answer_query _ _ _ _ _ hsel]
  exact holdsFitting_writeDocuments id fun w hw =>
    hs.query (sendable_of_requireDict (sendable_of_unmarshal hn) hd) hw

/-- A store without documents is readable. -/
theorem readable_empty (g : Grammar) (config : StoreSettings) : (empty g config).Readable := by
  intro key writer d h
  cases h

/-- After any requests of valid writers, the answer to a request for the documents of a key is read
as these documents exactly when all of them fit, and the same is true of each projection. -/
theorem answer_holds_iff {g : Grammar}
    (hwell : g.Upholds fun _ n m => n.WellFormed → m.WellFormed)
    (huntagged : g.Upholds fun _ n m => n.Everywhere IsUntagged → m.Everywhere IsUntagged)
    (config : StoreSettings) {arrivals : List Arrival} (hvalid : ∀ a ∈ arrivals, a.writer.Valid)
    (key : String) (now : Instant) (writer : PeerId) (id : Uuid) (timeout : Option Duration) :
    HoldsFitting
      (((empty g config).served arrivals).answer now writer (.get id key) timeout).response
      (((empty g config).served arrivals).get key) ∧
    ∀ value sel ttl, (unmarshal value).bind requireDict = .ok sel →
      HoldsFitting
        (((empty g config).served arrivals).answer now writer
          ⟨id, .query, Utf8.bytes key, value, ttl⟩ timeout).response
        (((empty g config).served arrivals).query key sel) := by
  have hs := readable_served (readable_empty g config) hwell huntagged hvalid
  refine ⟨hs.holdsFitting_get now writer id key timeout, fun value sel ttl hsel => ?_⟩
  exact hs.holdsFitting_query now writer id key hsel ttl timeout

/-! ## Deep documents -/

/-- The store that has served one request to write that many dicts. -/
def nestedStored (n : Nat) : Store :=
  (empty .standard {}).served [⟨0, ⟨"writerP"⟩, .update ⟨0⟩ "k" (nestedDict n) 0, none⟩]

theorem nestedStored_eq {n : Nat} (hn : (nestedDict n).nesting ≤ Json.nestingLimit)
    (hread : (Wire.ofNode (nestedDict n)).toNode = .ok (nestedDict n)) :
    nestedStored n = (empty .standard {}).step (.write 0 ⟨"writerP"⟩ "k" (nestedDict n) {}) := by
  have hdoc : unmarshal (nestedDict n).marshal = .ok (nestedDict n) := by
    rw [unmarshal_marshal, if_pos hn, hread]
  exact store_answer_update rfl (Utf8.text?_bytes "k") hdoc _ _ _ _

/-- Thirty dicts inside each other, as they are and as far as a dict with a text asks for them. -/
theorem thirty_dicts_read :
    (((nestedStored 30).answer 0 ⟨"readerQ"⟩ (.get ⟨1⟩ "k") none).response.Holds
      ((nestedStored 30).get "k") ∧ ((nestedStored 30).get "k").size = 1) ∧
    ((nestedStored 30).answer 0 ⟨"readerQ"⟩
      ⟨⟨2⟩, .query, Utf8.bytes "k", (nestedDict 2).marshal, 0⟩ none).response.Holds
      ((nestedStored 30).query "k" ⟨"", [(ofString "a", nestedDict 1)]⟩) := by
  have hread : (unmarshal (nestedDict 2).marshal).bind requireDict =
      .ok ⟨"", [(ofString "a", nestedDict 1)]⟩ := by
    rw [unmarshal_marshal, if_pos (by decide +kernel)]
    rfl
  have hvalid : ∀ a ∈ [(⟨0, ⟨"writerP"⟩, .update ⟨0⟩ "k" (nestedDict 30) 0, none⟩ : Arrival)],
      a.writer.Valid := by
    intro a ha
    rw [List.mem_singleton.1 ha]
    decide
  obtain ⟨hget, hquery⟩ := answer_holds_iff (Grammar.isStock_standard.upholds _)
    (Grammar.isStock_standard.upholds _) {} hvalid "k" 0 ⟨"readerQ"⟩ ⟨1⟩ none
  have hstored := nestedStored_eq (n := 30) (by decide +kernel) rfl
  refine ⟨⟨hget.1.2 ?_, ?_⟩, ?_⟩
  · show ∀ w ∈ ((nestedStored 30).get "k").entries, w.2.Fits
    rw [hstored]
    decide +kernel
  · rw [hstored]
    decide +kernel
  · have hquery := (answer_holds_iff (Grammar.isStock_standard.upholds _)
      (Grammar.isStock_standard.upholds _) {} hvalid "k" 0 ⟨"readerQ"⟩ ⟨2⟩ none).2 _ _ 0 hread
    apply hquery.1.2
    show ∀ w ∈ ((nestedStored 30).query "k" ⟨"", [(ofString "a", nestedDict 1)]⟩).entries,
      w.2.Fits
    rw [hstored]
    decide +kernel

/-- Thirty-one dicts inside each other are accepted and held, but no answer is read as them. -/
theorem thirty_one_dicts_not_read : ¬ ∀ (arrivals : List Arrival) (key : String),
    (∀ a ∈ arrivals, a.writer.Valid) →
    (((empty .standard {}).served arrivals).answer 0 ⟨"readerQ"⟩ (.get ⟨1⟩ key) none).response.Holds
      (((empty .standard {}).served arrivals).get key) := by
  intro h
  have hvalid : ∀ a ∈ [(⟨0, ⟨"writerP"⟩, .update ⟨0⟩ "k" (nestedDict 31) 0, none⟩ : Arrival)],
      a.writer.Valid := by
    intro a ha
    rw [List.mem_singleton.1 ha]
    decide
  have hread := h _ "k" hvalid
  have hs := readable_served (readable_empty .standard {}) (Grammar.isStock_standard.upholds _)
    (Grammar.isStock_standard.upholds _) hvalid
  have hall := (hs.holdsFitting_get 0 ⟨"readerQ"⟩ ⟨1⟩ "k" none).1.1 hread
  have hstored := nestedStored_eq (n := 31) (by decide +kernel) rfl
  change ∀ w ∈ ((nestedStored 31).get "k").entries, w.2.Fits at hall
  rw [hstored] at hall
  revert hall
  decide +kernel

end Store

end PeerRecords
