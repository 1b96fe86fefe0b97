import PeerRecords.Projection
import PeerRecords.Proofs.Uniqueness
import PeerRecords.Proofs.Wire.Basic

/-
  Sendable documents through the store.
  Assembly, updates and taking the plain form give named arguments no tag of their own, so plain
  forms of documents without repeated keys and elements are sendable (`sendable_disassemble`). What
  a sendable selector takes of a sendable dict is sendable (`sendable_project`).
-/

namespace PeerRecords

open Node

namespace Node

/-! ## Plain forms -/

/-- The plain form gives named arguments no tags. -/
theorem untagged_disassemble {n : Node} (h : n.Everywhere IsUntagged) :
    n.disassemble.Everywhere IsUntagged := by
  refine h.disassemble (fun n hn => ?_) (fun v => trivial) ?_
  · cases n with
    | predicate e t as nt ps => exact hn
    | identity => rfl
    | claim => rfl
    | verify => rfl
    | reachable => rfl
    | _ => trivial
  · intros
    trivial

/-- The plain form of an untagged document without repeated keys and elements is sendable. -/
theorem sendable_disassemble {n : Node} (hn : n.WellFormed) (h : n.Everywhere IsUntagged) :
    n.disassemble.Sendable := ⟨hn.tidy, untagged_disassemble h⟩

/-! ## Updates -/

/-- An update gives named arguments no tags. -/
theorem untagged_update {a b r : Node} (ha : a.Everywhere IsUntagged)
    (hb : b.Everywhere IsUntagged) (h : a.update b = .ok r) : r.Everywhere IsUntagged := by
  refine everywhere_update (fun e n hn => hn.withExpiry e) ?_ ha hb h
  intro a b r h ha _
  cases h with
  | predicate e e' t t' nt nt' as bs h => exact ha
  | _ => trivial

end Node

/-! ## Assembly -/

/-- Assembly gives named arguments no tags, if no rule of the grammar's own does. -/
theorem Grammar.untagged_of_yields {g : Grammar} {ctx : Context} {n m : Node}
    (hg : g.Upholds fun _ n m => n.Everywhere IsUntagged → m.Everywhere IsUntagged)
    (hn : n.Everywhere IsUntagged) (h : (g.assemble ctx n).Yields m) :
    m.Everywhere IsUntagged := by
  refine everywhere_of_yields ?_ (fun x => untagged_disassemble) ?_ (fun s => trivial) ?_ hn h
  · intro n m hn hm
    cases hm with
    | predicate e t nt hargs hps => exact hn.self
    | own rule hrule hr => exact (hg rule hrule ctx n m hr hn).self
    | _ => trivial
  · exact fun x _ hx => hx.withExpiry (fun e n hn => hn.withExpiry e) ctx.expiry
  · exact fun rule hrule ctx' n m hr _ hn => hg rule hrule ctx' n m hr hn

/-! ## Projections -/

namespace Dict

/-- A dict whose keys are distinct is sendable when its keys and values are. -/
theorem sendable_dict_iff {e : Expiry} {t : String} {ps : List (Node × Node)} :
    (Node.dict e t ps).Sendable ↔
      areDistinct (ps.map (·.1)) = true ∧ ∀ p ∈ ps, p.1.Sendable ∧ p.2.Sendable := by
  rw [sendable_iff, children, forall_entryNodes]
  constructor
  · rintro ⟨_, hkeys, _, hps⟩
    exact ⟨hkeys, hps⟩
  · rintro ⟨hkeys, hps⟩
    exact ⟨rfl, hkeys, trivial, hps⟩

/-- Giving a key a value keeps a dict sendable. -/
theorem sendable_put {e : Expiry} {t : String} {ps : List (Node × Node)} {k v : Node}
    (hps : (Node.dict e t ps).Sendable) (hk : k.Sendable) (hv : v.Sendable) :
    (Node.dict e t (Entries.put (isKey k) k v ps)).Sendable := by
  obtain ⟨hkeys, hparts⟩ := sendable_dict_iff.1 hps
  refine sendable_dict_iff.2 ⟨?_, forall_entryNodes.1 fun c hc => ?_⟩
  · rw [areDistinct_iff] at hkeys ⊢
    exact Entries.pairwise_put hkeys fun p _ hp => hp
  · obtain rfl | rfl | hc := Entries.mem_entryNodes_put hc
    · exact hk
    · exact hv
    · exact forall_entryNodes.2 hparts c hc

theorem sendable_lookup? {e : Expiry} {t : String} {ps : List (Node × Node)} {test : Node → Bool}
    {n : Node} (hps : (Node.dict e t ps).Sendable) (h : Entries.lookup? test ps = some n) :
    n.Sendable := by
  obtain ⟨p, hp, rfl⟩ := Option.map_eq_some_iff.1 h
  exact ((sendable_dict_iff.1 hps).2 p (List.mem_of_find?_eq_some hp)).2

/-- Taking more entries of a sendable dict keeps what is taken sendable, if the selector's values
take sendable parts only. -/
theorem sendable_projectEntries {e e' : Expiry} {t t' : String}
    {source taken sel : List (Node × Node)}
    (hvalue : ∀ p ∈ sel, ∀ found n, found.Sendable → projectValue p.2 found = some n → n.Sendable)
    (hsel : ∀ p ∈ sel, p.1.Sendable) (hsource : (Node.dict e t source).Sendable)
    (htaken : (Node.dict e' t' taken).Sendable) :
    (Node.dict e' t' (projectEntries source taken sel)).Sendable := by
  induction sel generalizing taken with
  | nil => exact htaken
  | cons p sel ih =>
    obtain ⟨k, want⟩ := p
    have hrest := fun q hq => hvalue q (List.mem_cons_of_mem _ hq)
    have hkeys := fun q hq => hsel q (List.mem_cons_of_mem _ hq)
    rw [projectEntries]
    split
    · rename_i n hn
      obtain ⟨found, hfound, hn⟩ := Option.bind_eq_some_iff.1 hn
      have hnew := hvalue (k, want) List.mem_cons_self found n (sendable_lookup? hsource hfound) hn
      exact ih hrest hkeys (sendable_put htaken (hsel (k, want) List.mem_cons_self) hnew)
    · exact ih hrest hkeys htaken

theorem sendable_of_sameSort {want found n : Node} (hfound : found.Sendable)
    (h : (if want.sameSort found then some found else none) = some n) : n.Sendable := by
  split at h
  · cases h
    exact hfound
  · cases h

/-- What a sendable selector takes of a sendable node is sendable. -/
theorem sendable_projectValue {want found n : Node} (hwant : want.Sendable)
    (hfound : found.Sendable) (h : projectValue want found = some n) : n.Sendable := by
  induction want using Node.induct generalizing found n with
  | dict e t sel ih =>
    have hsel := (sendable_dict_iff.1 hwant).2
    cases found with
    | dict e' u ps =>
      rw [projectValue] at h
      by_cases hempty : sel.isEmpty = true
      · rw [if_pos hempty] at h
        by_cases htag : t = u
        · rw [if_pos htag] at h
          cases h
          exact hfound
        · rw [if_neg htag] at h
          cases h
      · rw [if_neg hempty] at h
        cases h
        refine sendable_projectEntries (fun p hp found n hf hn => ?_) (fun p hp => (hsel p hp).1)
          hfound (sendable_dict_iff.2 ⟨rfl, fun _ hp => absurd hp List.not_mem_nil⟩)
        exact (ih p hp).2 (hsel p hp).2 hf hn
    | _ => cases h
  | leaf e v => exact sendable_of_sameSort hfound h
  | set e t es ih => exact sendable_of_sameSort hfound h
  | predicate e t as nt ps iha ihp => exact sendable_of_sameSort hfound h
  | identity e i us ih => exact sendable_of_sameSort hfound h
  | claim e a b s g us ihs ihu => exact sendable_of_sameSort hfound h
  | verify e s us ihs ihu => exact sendable_of_sameSort hfound h
  | reachable e m vt vs ut uvs us ihv ihn ihu => exact sendable_of_sameSort hfound h

/-- The part of a sendable dict that a sendable selector asks for is sendable. -/
theorem sendable_project {d sel : Dict} {e : Expiry} (hd : (d.toNode e).Sendable)
    (hsel : (sel.toNode e).Sendable) : ((d.project sel).toNode e).Sendable :=
  sendable_projectEntries
    (fun p hp _ _ hf hn => sendable_projectValue ((sendable_dict_iff.1 hsel).2 p hp).2 hf hn)
    (fun p hp => ((sendable_dict_iff.1 hsel).2 p hp).1) hd
    (sendable_dict_iff.2 ⟨rfl, fun _ hp => absurd hp List.not_mem_nil⟩)

end Dict

end PeerRecords
