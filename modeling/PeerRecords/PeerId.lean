/-
  The identity of a writing peer: a name. A name that was read from a document or an address is
  valid, that is, a non-empty run of ASCII letters, digits, hyphens and underscores; a name that
  the transport or a command line hands in is taken as it is.
-/

namespace PeerRecords

/-- Whether every character is an ASCII letter, a digit, a hyphen or an underscore, and there is
one. -/
def isPlainName (s : String) : Bool :=
  !s.toList.isEmpty && s.toList.all fun c => c.isAlphanum || c == '-' || c == '_'

/-- The identity of a writing peer. -/
structure PeerId where
  name : String
deriving DecidableEq, Repr, Inhabited

namespace PeerId

/-- Whether the name is one that a document or an address may hold. -/
def Valid (p : PeerId) : Prop := isPlainName p.name = true

instance (p : PeerId) : Decidable p.Valid := inferInstanceAs (Decidable (_ = true))

/-- Reads a valid name. -/
def parse? (s : String) : Option PeerId := if isPlainName s then some ⟨s⟩ else none

theorem parse?_eq_some_iff {s : String} {p : PeerId} :
    parse? s = some p ↔ p.name = s ∧ p.Valid := by
  unfold parse? Valid
  constructor
  · intro h
    split at h
    · cases h; exact ⟨rfl, by assumption⟩
    · cases h
  · rintro ⟨rfl, h⟩
    rw [if_pos h]

end PeerId

end PeerRecords
