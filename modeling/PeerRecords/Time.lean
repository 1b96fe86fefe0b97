/-
  Instants, durations, and the expirations that nodes carry.
  Two expirations of one node combine to the later one; a node without an expiration that is
  written again with one takes it, and a write without one leaves the node's as it is.
  A lifetime asked for at a write resolves against the clock to an expiration, or to none when
  the sum leaves the calendar.
-/

namespace PeerRecords

/-- Nanoseconds since the Unix epoch. -/
abbrev Instant := Int

/-- A length of time in nanoseconds. -/
abbrev Duration := Nat

/-- When a node expires; `none` for a node that never does. -/
abbrev Expiry := Option Instant

/-- The duration of `n` seconds. -/
def Duration.ofSeconds (n : Nat) : Duration := n * 1000000000

/-- The last instant of the calendar, 262142-12-31T23:59:59.999999999Z. -/
def Instant.last : Instant := 8210266876799999999999

/-- The longest lifetime that counts: `2^63 - 1` milliseconds. -/
def Duration.longest : Duration := 9223372036854775807000000

namespace Expiry

/-- An expiration has passed at the instant it names. -/
def isExpired (e : Expiry) (now : Instant) : Bool :=
  match e with
  | some t => decide (t ≤ now)
  | none => false

/-- The later of two expirations; an absent one gives way to the other. -/
def combine : Expiry → Expiry → Expiry
  | some a, some b => some (max a b)
  | a, none => a
  | none, b => b

@[simp] theorem combine_none_right (a : Expiry) : combine a none = a := by cases a <;> rfl

@[simp] theorem combine_none_left (b : Expiry) : combine none b = b := by cases b <;> rfl

@[simp] theorem isExpired_none (now : Instant) : isExpired none now = false := rfl

end Expiry

/-- How long the nodes of one write are to live. -/
structure Lifetime where
  ttl : Option Duration := none
  endless : Bool := false
deriving DecidableEq, Repr, Inhabited

namespace Lifetime

/-- The lifetime of `d` from the write on. -/
def lasting (d : Duration) : Lifetime := { ttl := some d }

/-- A lifetime without end, whatever a default says. -/
def unending : Lifetime := { endless := true }

/-- The expiration of nodes written at `now`: none when the end is not wanted, not given, or
past the calendar. -/
def resolve (l : Lifetime) (now : Instant) : Expiry :=
  if l.endless then none
  else match l.ttl with
    | none => none
    | some d => if d ≤ Duration.longest ∧ now + d ≤ Instant.last then some (now + d) else none

/-- A lifetime that states no length takes the one given. -/
def withDefault (l : Lifetime) (d : Option Duration) : Lifetime :=
  { l with ttl := l.ttl <|> d }

end Lifetime

end PeerRecords
