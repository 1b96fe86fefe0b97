import PeerRecords.Exchange.Message
import PeerRecords.Proofs.Sendable
import PeerRecords.Proofs.Wire.Text

/-
  The documents of a response.
  They travel as one dict with an entry for each writer, so one limit is on all of them: a response
  is read as what was written (`Response.Holds`) exactly when every document fits, that is, leaves
  room for the four arrays and objects around it, and otherwise nothing of it is read
  (`documents_writeDocuments`).
-/

namespace PeerRecords

open Node

/-! ## Tables in order -/

namespace Table

variable {κ β : Type} [TextKey κ]

/-- A key after all others goes to the end. -/
theorem insertEntry_of_lt {k : κ} {v : β} {ps : List (κ × β)}
    (h : ∀ p ∈ ps, TextKey.text p.1 < TextKey.text k) : insertEntry k v ps = ps ++ [(k, v)] := by
  induction ps with
  | nil => rfl
  | cons p ps ih =>
    have hp := h p List.mem_cons_self
    have hne : TextKey.text k ≠ TextKey.text p.1 := by
      intro he
      rw [he] at hp
      exact String.lt_irrefl _ hp
    have hnlt : ¬ TextKey.text k < TextKey.text p.1 :=
      fun hlt => String.lt_irrefl _ (String.lt_trans hp hlt)
    rw [insertEntry, if_neg hne, if_neg hnlt, ih fun q hq => h q (List.mem_cons_of_mem _ hq)]
    rfl

/-- The order goes by the keys alone. -/
theorem pairwise_lt_of_map_fst_eq {ps qs : List (κ × β)} (h : ps.map (·.1) = qs.map (·.1))
    (hqs : qs.Pairwise fun p q => TextKey.text p.1 < TextKey.text q.1) :
    ps.Pairwise fun p q => TextKey.text p.1 < TextKey.text q.1 := by
  have hiff : ∀ rs : List (κ × β),
      (rs.map (·.1)).Pairwise (fun k l => TextKey.text k < TextKey.text l) ↔
        rs.Pairwise fun p q => TextKey.text p.1 < TextKey.text q.1 := fun rs => List.pairwise_map
  rw [← hiff, h, hiff]
  exact hqs

/-- Each key of a table has its own value. -/
theorem get?_of_mem {t : Table κ β} {k : κ} {v : β} (h : (k, v) ∈ t.entries) :
    t.get? k = some v := by
  obtain ⟨ps, hsorted⟩ := t
  simp only [get?]
  induction ps with
  | nil => exact absurd h List.not_mem_nil
  | cons p ps ih =>
    obtain ⟨hp, hps⟩ := List.pairwise_cons.1 hsorted
    obtain rfl | h := List.mem_cons.1 h
    · simp
    · have hlt := hp (k, v) h
      have hne : TextKey.text p.1 ≠ TextKey.text k := fun he => String.lt_irrefl _ (he ▸ hlt)
      rw [List.find?_cons, beq_false_of_ne hne]
      exact ih hps h

end Table

/-! ## One dict for all writers -/

theorem Entries.put_of_forall {test : Node → Bool} {k v : Node} {ps : List (Node × Node)}
    (h : ∀ p ∈ ps, test p.1 = false) : put test k v ps = ps ++ [(k, v)] := by
  induction ps with
  | nil => rfl
  | cons p ps ih =>
    rw [put, h p List.mem_cons_self, ih fun q hq => h q (List.mem_cons_of_mem _ hq)]
    rfl

/-- The entry of a writer. -/
def writerEntry (w : PeerId × Dict) : Node × Node := (ofString w.1.name, w.2.toNode none)

theorem eqv_ofString {s t : String} (h : s ≠ t) : (ofString s).eqv (ofString t) = false :=
  same_ofString h

/-- The dict of all documents has an entry for each writer, in order. -/
theorem documentsDict_eq (docs : Table PeerId Dict) :
    documentsDict docs = ⟨"", docs.entries.map writerEntry⟩ := by
  have hfold : ∀ ws done : List (PeerId × Dict), (done ++ ws).Pairwise
      (fun v w => TextKey.text v.1 < TextKey.text w.1) →
      ws.foldl (fun d w => d.insert (ofString w.1.name) (w.2.toNode none))
        ⟨"", done.map writerEntry⟩ = (⟨"", (done ++ ws).map writerEntry⟩ : Dict) := by
    intro ws
    induction ws with
    | nil =>
      intro done _
      rw [List.append_nil]
      rfl
    | cons w ws ih =>
      intro done h
      have hput : Entries.put (Dict.isKey (ofString w.1.name)) (ofString w.1.name)
          (w.2.toNode none) (done.map writerEntry) = (done ++ [w]).map writerEntry := by
        rw [Entries.put_of_forall, List.map_append]
        · rfl
        · refine List.forall_mem_map.2 fun v hv => eqv_ofString fun he => ?_
          have hlt : v.1.name < w.1.name := (List.pairwise_append.1 h).2.2 v hv w List.mem_cons_self
          rw [he] at hlt
          exact String.lt_irrefl _ hlt
      rw [List.append_cons] at h
      rw [List.foldl_cons, Dict.insert, hput, ih _ h, List.append_cons done w ws]
  exact hfold docs.entries [] docs.sorted

/-- The dict of all documents is sendable when they are. -/
theorem sendable_documentsDict {docs : Table PeerId Dict}
    (h : ∀ w ∈ docs.entries, (w.2.toNode none).Sendable) :
    ((documentsDict docs).toNode none).Sendable := by
  rw [documentsDict_eq]
  refine Dict.sendable_dict_iff.2 ⟨?_, List.forall_mem_map.2 fun w hw => ?_⟩
  · rw [areDistinct_iff, List.map_map]
    refine List.pairwise_map.2 (docs.sorted.imp fun {v w} hvw => eqv_ofString fun he => ?_)
    have hlt : v.1.name < w.1.name := hvw
    rw [he] at hlt
    exact String.lt_irrefl _ hlt
  · exact ⟨Wire.sendable_leaf _ _, h w hw⟩

/-! ## Reading the documents of writers -/

/-- The document's text leaves room for the four arrays and objects around it in a response. -/
def Dict.Fits (d : Dict) : Prop := (d.toNode none).nesting + 4 ≤ Json.nestingLimit

instance (d : Dict) : Decidable d.Fits := inferInstanceAs (Decidable (_ ≤ _))

/-- The same writer with an equal document. -/
def SameDocument (v w : PeerId × Dict) : Prop :=
  v.1 = w.1 ∧ (v.2.toNode none).eqv (w.2.toNode none) = true

/-- A response is read as the documents of a table, writer by writer. -/
def Response.Holds (r : Response) (docs : Table PeerId Dict) : Prop :=
  ∃ read, r.documents = .ok read ∧ List.Forall₂ SameDocument read.entries docs.entries

theorem readWriter_of_alike {w : PeerId × Dict} {q : Node × Node} (hw : w.1.Valid)
    (hdoc : (w.2.toNode none).Tidy) (hq : q.2.Tidy) (h : AlikeEntry (writerEntry w) q) :
    ∃ d, readWriter q = .ok (w.1, d) ∧ SameDocument (w.1, d) w := by
  obtain ⟨k, v⟩ := q
  obtain ⟨hk, hv⟩ := h
  have hkey : k.string? = some w.1.name := by
    cases k with
    | leaf e l => cases l <;> simp_all [writerEntry, ofString, Leaf.alike, string?]
    | _ => exact absurd hk id
  cases v with
  | dict e t rs =>
    have hid : readPeerId w.1.name = .ok w.1 := by
      rw [readPeerId, PeerId.parse?_eq_some_iff.2 ⟨rfl, hw⟩]
    have hplain : (dict none t rs).Tidy := hq
    refine ⟨⟨t, rs⟩, ?_, rfl, ?_⟩
    · simp only [readWriter, hkey, hid]
      rfl
    · exact (hplain.eqv_iff hdoc).2 (alike_dict.2 (alike_dict.1 hv)).symm
  | _ => exact absurd hv id

/-- Entries that are like those of writers in order are read as the documents of these writers. -/
theorem readWriters_of_alike {ws : List (PeerId × Dict)} {qs : List (Node × Node)}
    (h : List.Forall₂ AlikeEntry (ws.map writerEntry) qs) (hvalid : ∀ w ∈ ws, w.1.Valid)
    (hdocs : ∀ w ∈ ws, (w.2.toNode none).Tidy) (hqs : ∀ q ∈ qs, q.2.Tidy)
    (acc : Table PeerId Dict)
    (hsorted : (acc.entries ++ ws).Pairwise fun v w => TextKey.text v.1 < TextKey.text w.1) :
    ∃ read, readWriters acc qs = .ok read ∧
      ∃ vs, read.entries = acc.entries ++ vs ∧ List.Forall₂ SameDocument vs ws := by
  induction ws generalizing acc qs with
  | nil =>
    cases h
    exact ⟨acc, rfl, [], (List.append_nil _).symm, .nil⟩
  | cons w ws ih =>
    cases h with
    | cons hq hrest =>
      obtain ⟨d, hread, hsame⟩ := readWriter_of_alike (hvalid w List.mem_cons_self)
        (hdocs w List.mem_cons_self) (hqs _ List.mem_cons_self) hq
      have hlast : ∀ v ∈ acc.entries, TextKey.text v.1 < TextKey.text w.1 :=
        fun v hv => (List.pairwise_append.1 hsorted).2.2 v hv w List.mem_cons_self
      have hinsert : (acc.insert w.1 d).entries = acc.entries ++ [(w.1, d)] :=
        Table.insertEntry_of_lt hlast
      have hkeys : ((acc.insert w.1 d).entries ++ ws).map (·.1) =
          (acc.entries ++ w :: ws).map (·.1) := by
        rw [hinsert]
        simp
      have hnext := Table.pairwise_lt_of_map_fst_eq hkeys hsorted
      obtain ⟨read, hok, vs, hvs, hall⟩ := ih hrest
        (fun v hv => hvalid v (List.mem_cons_of_mem _ hv))
        (fun v hv => hdocs v (List.mem_cons_of_mem _ hv))
        (fun q hq => hqs q (List.mem_cons_of_mem _ hq)) (acc.insert w.1 d) hnext
      refine ⟨read, ?_, (w.1, d) :: vs, ?_, .cons hsame hall⟩
      · rw [readWriters, hread]
        exact hok
      · rw [hvs, hinsert, List.append_assoc]
        rfl

/-- The dict of all documents can be read back just if each document fits. -/
theorem nesting_writerEntries_le_iff {ws : List (PeerId × Dict)}
    (h : (Node.dict none "" (ws.map writerEntry)).isPlain = true) :
    (Node.dict none "" (ws.map writerEntry)).nesting ≤ Json.nestingLimit ↔
      ∀ w ∈ ws, w.2.Fits := by
  have hname : ∀ s : String, (ofString s).nesting = 1 := fun s => rfl
  have hlimit := nesting_dict_le_iff (n := 123) h
  rw [List.forall_mem_map] at hlimit
  refine hlimit.trans (forall₂_congr fun w _ => ?_)
  unfold Dict.Fits writerEntry Json.nestingLimit
  dsimp only
  rw [hname]
  omega

/-- The entries of all writers travel, and come back as entries like them. -/
theorem toNode_ofPlain_writerEntries {ws : List (PeerId × Dict)}
    (h : (Node.dict none "" (ws.map writerEntry)).Sendable) :
    ∃ qs, (Wire.ofPlain (Node.dict none "" (ws.map writerEntry))).toNode = .ok (.dict none "" qs) ∧
      (Node.dict none "" qs).Sendable ∧
      List.Forall₂ AlikeEntry (ws.map writerEntry) qs := by
  obtain ⟨hkeys, hparts⟩ := Dict.sendable_dict_iff.1 h
  obtain ⟨qs, hqs, hmatch⟩ := Wire.toNode_ofPlain_dict (e := none) (t := "") hkeys
    (fun p hp => (hparts p hp).1.tidy)
    fun p hp => ⟨Wire.toNode_ofPlain (hparts p hp).1, Wire.toNode_ofPlain (hparts p hp).2⟩
  exact ⟨qs, hqs, Wire.sendable_of_toNode hqs, hmatch.imp fun p q hpq => hpq.alike⟩

/-- A response to which documents were written is read as these documents exactly when all of them
fit; with one that does not, none is read. -/
theorem documents_writeDocuments {docs : Table PeerId Dict} (id : Uuid)
    (hvalid : ∀ w ∈ docs.entries, w.1.Valid)
    (hdocs : ∀ w ∈ docs.entries, (w.2.toNode none).Sendable) :
    ((∀ w ∈ docs.entries, w.2.Fits) →
      Response.Holds ⟨id, .ok, writeDocuments docs⟩ docs) ∧
    ((∃ w ∈ docs.entries, ¬ w.2.Fits) →
      Response.documents ⟨id, .ok, writeDocuments docs⟩ = .error .format) := by
  have hdict : (documentsDict docs).toNode none = .dict none "" (docs.entries.map writerEntry) := by
    rw [documentsDict_eq]
    rfl
  have hsend : (Node.dict none "" (docs.entries.map writerEntry)).Sendable :=
    hdict ▸ sendable_documentsDict hdocs
  have hnesting := nesting_writerEntries_le_iff hsend.tidy.1
  have hread := unmarshal_marshal (.dict none "" (docs.entries.map writerEntry))
  have hstart : Response.documents ⟨id, .ok, writeDocuments docs⟩ =
      (unmarshal (Node.dict none "" (docs.entries.map writerEntry)).marshal).bind fun n =>
        n.requireDict.bind fun d => readWriters .empty d.entries := by
    rw [← hdict]
    rfl
  constructor
  · intro hfits
    obtain ⟨qs, hqs, hmade, halike⟩ := toNode_ofPlain_writerEntries hsend
    have htidy := (Dict.sendable_dict_iff.1 hmade).2
    obtain ⟨read, hok, vs, hvs, hsame⟩ := readWriters_of_alike halike hvalid
      (fun w hw => (hdocs w hw).tidy) (fun q hq => (htidy q hq).2.tidy) .empty docs.sorted
    refine ⟨read, ?_, ?_⟩
    · rw [hstart, hread, if_pos (hnesting.2 hfits), Wire.ofNode,
        disassemble_of_isPlain hsend.tidy.1,
        hqs]
      exact hok
    · rw [hvs]
      exact hsame
  · rintro ⟨w, hw, hlarge⟩
    rw [hstart, hread, if_neg fun hle => hlarge (hnesting.1 hle w hw)]
    rfl

end PeerRecords
