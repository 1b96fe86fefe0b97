import PeerRecords.Multiaddr
import PeerRecords.Proofs.Outcome
import Mathlib.Data.List.Forall2

/-
  The text of a network address.
  A text is cut at its slashes and joined again when the address is written, and no component
  changes the spelling of its segments. So an address that was read writes the text it was read
  from (`text_of_parse`), whatever spelling of numbers or names that text has.
  `IsSpelling` is the grammar of these texts. Reading tells a value from a name by the protocol
  that stands before it, never by what it looks like, so a text has one list of components, and
  reading finds it (`parse_eq_ok_iff`).

  Main statement: `parse_accepts_spellings`.
-/

namespace PeerRecords.Multiaddr

theorem Protocol.name_of_ofName? {s : String} {p : Protocol} (h : ofName? s = some p) :
    p.name = s := by
  unfold ofName? at h
  simpa using List.find?_some h

theorem Protocol.slash_not_mem_name (p : Protocol) : '/' ∉ p.name.toList := by
  cases p <;> decide

/-! ## Segments -/

namespace Component

/-- The name of a component and its value, if it has one. -/
def segments (c : Component) : List String := c.protocol.name :: c.value.toList

/-- The value holds no slash, if there is one. -/
def IsUncut (c : Component) : Prop := ∀ v ∈ c.value, '/' ∉ v.toList

theorem text_eq_flatMap (c : Component) :
    c.text = c.segments.flatMap fun s => '/' :: s.toList := by
  unfold text segments
  cases c.value <;> simp

theorem isUncut_iff {c : Component} : c.IsUncut ↔ ∀ s ∈ c.segments, '/' ∉ s.toList := by
  rw [segments, List.forall_mem_cons]
  simp [IsUncut, c.protocol.slash_not_mem_name]

end Component

/-- Components that are read are admissible, and were read from their own segments. -/
theorem segments_of_readComponents {segments : List String} {cs : List Component}
    (h : readComponents segments = .ok cs) :
    (∀ c ∈ cs, c.Admissible) ∧ cs.flatMap Component.segments = segments := by
  fun_induction readComponents segments generalizing cs with
  | case1 =>
    cases h
    exact ⟨List.forall_mem_nil _, rfl⟩
  | case2 name rest hname => cases h
  | case3 name p hname hvalued => cases h
  | case4 name p hname hvalued value rest haccepts ih =>
    obtain ⟨ds, hds, h⟩ := bind_eq_ok.1 h
    cases h
    obtain ⟨hadmissible, hsegments⟩ := ih hds
    refine ⟨List.forall_mem_cons.2 ⟨⟨hvalued, haccepts⟩, hadmissible⟩, ?_⟩
    rw [List.flatMap_cons, hsegments, Component.segments, Protocol.name_of_ofName? hname]
    rfl
  | case5 name p hname hvalued value rest haccepts => cases h
  | case6 name rest p hname hvalued ih =>
    obtain ⟨ds, hds, h⟩ := bind_eq_ok.1 h
    cases h
    obtain ⟨hadmissible, hsegments⟩ := ih hds
    refine ⟨List.forall_mem_cons.2 ⟨eq_false_of_ne_true hvalued, hadmissible⟩, ?_⟩
    rw [List.flatMap_cons, hsegments, Component.segments, Protocol.name_of_ofName? hname]
    rfl

/-- Admissible components are read from their segments. -/
theorem readComponents_segments {cs : List Component} (h : ∀ c ∈ cs, c.Admissible) :
    readComponents (cs.flatMap Component.segments) = .ok cs := by
  induction cs with
  | nil => rfl
  | cons c cs ih =>
    obtain ⟨hc, hcs⟩ := List.forall_mem_cons.1 h
    obtain ⟨p, value⟩ := c
    rw [List.flatMap_cons, Component.segments, List.cons_append, readComponents,
      Protocol.ofName?_name]
    cases value with
    | none =>
      have halone : p.isValued = false := hc
      simp only [halone, Option.toList, List.nil_append, ih hcs, ok_bind]
      rfl
    | some v =>
      obtain ⟨hvalued, haccepts⟩ : p.isValued = true ∧ p.accepts v = true := hc
      simp only [hvalued, haccepts, Option.toList, List.cons_append, List.nil_append, ih hcs,
        ok_bind, if_true]

theorem flatMap_text_eq (cs : List Component) : cs.flatMap Component.text =
    (cs.flatMap Component.segments).flatMap fun s => '/' :: s.toList := by
  rw [List.flatMap_assoc]
  exact List.flatMap_congr fun c _ => c.text_eq_flatMap

/-! ## Cutting at slashes -/

theorem flatMap_cons_eq_intercalate {sep : Char} {segments : List (List Char)}
    (h : segments ≠ []) :
    segments.flatMap (fun s => sep :: s) = sep :: [sep].intercalate segments := by
  induction segments with
  | nil => exact absurd rfl h
  | cons s rest ih =>
    cases rest with
    | nil => simp
    | cons t rest =>
      rw [List.flatMap_cons, ih (List.cons_ne_nil t rest), List.intercalate_cons_cons]
      simp

/-- The pieces between separators hold none. -/
theorem not_mem_of_mem_splitOn {sep : Char} {text piece : List Char}
    (h : piece ∈ text.splitOn sep) : sep ∉ piece := by
  induction text generalizing piece with
  | nil =>
    rw [List.splitOn_nil, List.mem_singleton] at h
    rw [h]
    exact List.not_mem_nil
  | cons c text ih =>
    rw [List.splitOn_cons_eq_if_modifyHead] at h
    split at h
    · obtain rfl | h := List.mem_cons.1 h
      · exact List.not_mem_nil
      · exact ih h
    · rename_i hc
      obtain ⟨first, rest, hsplit⟩ := List.exists_cons_of_ne_nil (List.splitOn_ne_nil sep text)
      rw [hsplit, List.modifyHead_cons] at h
      rw [hsplit] at ih
      obtain rfl | h := List.mem_cons.1 h
      · rw [List.mem_cons, not_or]
        exact ⟨fun heq => hc (beq_iff_eq.2 heq.symm), ih List.mem_cons_self⟩
      · exact ih (List.mem_cons_of_mem _ h)

/-- A text is read as an address just if it is the text of admissible components, one or more, whose
values hold no slashes. -/
theorem parse_eq_ok_iff {s : String} {a : Multiaddr} : parse s = .ok a ↔
    a.components ≠ [] ∧ (∀ c ∈ a.components, c.Admissible ∧ c.IsUncut) ∧ a.text = s := by
  constructor
  · intro h
    unfold parse at h
    split at h
    next rest hs =>
      obtain ⟨cs, hcs, h⟩ := bind_eq_ok.1 h
      cases h
      obtain ⟨hadmissible, hsegments⟩ := segments_of_readComponents hcs
      refine ⟨?_, fun c hc => ⟨hadmissible c hc, Component.isUncut_iff.2 fun t ht => ?_⟩, ?_⟩
      · rintro rfl
        exact List.splitOn_ne_nil '/' rest (List.map_eq_nil_iff.1 hsegments.symm)
      · have hmem := List.mem_flatMap.2 ⟨c, hc, ht⟩
        rw [hsegments] at hmem
        obtain ⟨piece, hpiece, rfl⟩ := List.mem_map.1 hmem
        rw [String.toList_ofList]
        exact not_mem_of_mem_splitOn hpiece
      · rw [text, flatMap_text_eq, hsegments, List.flatMap_map]
        simp only [String.toList_ofList]
        rw [flatMap_cons_eq_intercalate (List.splitOn_ne_nil '/' rest), List.intercalate_splitOn,
          ← hs, String.ofList_toList]
    next => cases h
  · rintro ⟨hsome, hparts, rfl⟩
    obtain ⟨cs⟩ := a
    let segments := cs.flatMap Component.segments
    have hne : segments.map String.toList ≠ [] := by
      obtain ⟨c, ds, rfl⟩ := List.exists_cons_of_ne_nil hsome
      exact List.cons_ne_nil _ _
    have htext : cs.flatMap Component.text =
        '/' :: ['/'].intercalate (segments.map String.toList) := by
      rw [flatMap_text_eq, ← flatMap_cons_eq_intercalate hne, List.flatMap_map]
    have huncut : ∀ piece ∈ segments.map String.toList, '/' ∉ piece := by
      refine List.forall_mem_map.2 fun t ht => ?_
      obtain ⟨c, hc, ht⟩ := List.mem_flatMap.1 ht
      exact Component.isUncut_iff.1 (hparts c hc).2 t ht
    have hread : readComponents segments = .ok cs :=
      readComponents_segments fun c hc => (hparts c hc).1
    rw [parse, text, String.toList_ofList, htext]
    simp only [List.splitOn_intercalate '/' huncut hne, List.map_map]
    have hsame : segments.map (String.ofList ∘ String.toList) = segments :=
      List.map_id'' (fun t => String.ofList_toList) segments
    rw [hsame, hread, ok_bind]

/-- An address that was read has the text it was read from. -/
theorem text_of_parse {s : String} {addr : Multiaddr} (h : parse s = .ok addr) : addr.text = s :=
  (parse_eq_ok_iff.1 h).2.2

/-! ## The grammar of addresses -/

/-- The text of one component: `/name` of a protocol that stands alone, or `/name/value` of one that
takes a value, with a value without slashes that the protocol accepts. -/
inductive Component.Spelled : Component → List Char → Prop where
  | alone {p : Protocol} (h : p ∈ [.quic, .quicV1, .ws, .wss]) :
    Spelled ⟨p, none⟩ ('/' :: p.name.toList)
  | valued {p : Protocol} {v : String} (h : p ∈ [.ip4, .ip6, .dns, .dns4, .dns6, .tcp, .udp, .p2p])
      (huncut : '/' ∉ v.toList) (haccepts : p.accepts v = true) :
    Spelled ⟨p, some v⟩ ('/' :: p.name.toList ++ '/' :: v.toList)

/-- The text is put together of the texts of the components, one or more. -/
def IsSpelling (cs : List Component) (text : List Char) : Prop :=
  cs ≠ [] ∧ ∃ pieces, List.Forall₂ Component.Spelled cs pieces ∧ text = pieces.flatten

theorem Protocol.isValued_iff {p : Protocol} :
    p.isValued = true ↔ p ∈ [.ip4, .ip6, .dns, .dns4, .dns6, .tcp, .udp, .p2p] := by
  cases p <;> decide

theorem Protocol.isValued_eq_false_iff {p : Protocol} :
    p.isValued = false ↔ p ∈ [.quic, .quicV1, .ws, .wss] := by
  cases p <;> decide

theorem Component.spelled_iff {c : Component} {text : List Char} :
    c.Spelled text ↔ (c.Admissible ∧ c.IsUncut) ∧ text = c.text := by
  constructor
  · intro h
    cases h with
    | alone h =>
      exact ⟨⟨Protocol.isValued_eq_false_iff.2 h, by simp [IsUncut]⟩, by simp [Component.text]⟩
    | valued h huncut haccepts =>
      exact ⟨⟨⟨Protocol.isValued_iff.2 h, haccepts⟩, by simpa [IsUncut] using huncut⟩,
        by simp [Component.text]⟩
  · rintro ⟨⟨hadmissible, huncut⟩, rfl⟩
    obtain ⟨p, value⟩ := c
    cases value with
    | none =>
      rw [Component.text, List.append_nil]
      exact .alone (Protocol.isValued_eq_false_iff.1 hadmissible)
    | some v => exact .valued (Protocol.isValued_iff.1 hadmissible.1) (huncut v rfl) hadmissible.2

theorem forall₂_spelled_iff {cs : List Component} {pieces : List (List Char)} :
    List.Forall₂ Component.Spelled cs pieces ↔
      (∀ c ∈ cs, c.Admissible ∧ c.IsUncut) ∧ pieces = cs.map Component.text := by
  induction cs generalizing pieces with
  | nil => simp
  | cons c cs ih =>
    rw [List.forall₂_cons_left_iff]
    simp only [Component.spelled_iff, ih, List.forall_mem_cons, List.map_cons]
    constructor
    · rintro ⟨piece, rest, ⟨hc, rfl⟩, ⟨hcs, rfl⟩, rfl⟩
      exact ⟨⟨hc, hcs⟩, rfl⟩
    · rintro ⟨⟨hc, hcs⟩, rfl⟩
      exact ⟨_, _, ⟨hc, rfl⟩, ⟨hcs, rfl⟩, rfl⟩

/-- Reading finds the components that a text spells, and nothing where it spells none. -/
theorem parse_eq_ok_iff_isSpelling {s : String} {cs : List Component} :
    parse s = .ok ⟨cs⟩ ↔ IsSpelling cs s.toList := by
  have htext : text ⟨cs⟩ = s ↔ s.toList = (cs.map Component.text).flatten := by
    rw [← String.toList_inj, text, String.toList_ofList, List.flatMap_def, eq_comm]
  rw [parse_eq_ok_iff, IsSpelling]
  simp only [forall₂_spelled_iff, htext, and_assoc, exists_and_left, exists_eq_left]

/-- Reading accepts the spellings of components and nothing else; a text spells one list of
components, which is what is read. Writing an address that was read gives the text back, and reading
that gives the address back. -/
theorem parse_accepts_spellings (s : String) :
    ((∃ a, parse s = .ok a) ↔ ∃ cs, IsSpelling cs s.toList) ∧
    (∀ cs, IsSpelling cs s.toList →
      parse s = .ok ⟨cs⟩ ∧ ∀ ds, IsSpelling ds s.toList → ds = cs) ∧
    ∀ a, parse s = .ok a →
      IsSpelling a.components s.toList ∧ a.text = s ∧ parse a.text = .ok a := by
  refine ⟨⟨?_, ?_⟩, fun cs hcs => ?_, fun a ha => ?_⟩
  · rintro ⟨a, ha⟩
    exact ⟨a.components, parse_eq_ok_iff_isSpelling.1 ha⟩
  · rintro ⟨cs, hcs⟩
    exact ⟨⟨cs⟩, parse_eq_ok_iff_isSpelling.2 hcs⟩
  · have hread := parse_eq_ok_iff_isSpelling.2 hcs
    refine ⟨hread, fun ds hds => ?_⟩
    have hsame := (parse_eq_ok_iff_isSpelling.2 hds).symm.trans hread
    injection hsame with hsame
    exact congrArg components hsame
  · have htext := text_of_parse ha
    exact ⟨parse_eq_ok_iff_isSpelling.1 ha, htext, by rw [htext, ha]⟩

/-- A value that is the name of a protocol is a value. -/
example : (parse "/dns/ws/ws").toOption = some ⟨[⟨.dns, some "ws"⟩, ⟨.ws, none⟩]⟩ := by
  decide +kernel

end PeerRecords.Multiaddr
