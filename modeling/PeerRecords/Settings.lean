import PeerRecords.Json.Reader
import PeerRecords.Store

/-
  Durations, lifetimes and store settings as JSON records.
  A duration has both its fields and no other; nanoseconds past a second count as seconds, and all
  seconds together fit into sixty-four bits. The fields of a lifetime and of store settings may be
  left out.
-/

namespace PeerRecords

namespace Duration

/-- The whole seconds of a duration. -/
def seconds (d : Duration) : Nat := d / 1000000000

/-- The nanoseconds of a duration past its whole seconds. -/
def subsecond (d : Duration) : Nat := d % 1000000000

/-- Reads a duration. -/
def ofJson? (j : Json) : Option Duration :=
  match j.record? false ["secs", "nanos"] with
  | some [secs, nanos] => do
    let secs ← Json.required? Json.asNat64? secs
    let nanos ← Json.required? (Json.asNat? UInt32.size) nanos
    let d : Duration := ofSeconds secs + nanos
    if seconds d < UInt64.size then some d else none
  | _ => none

/-- The record of a duration. -/
def toJson (d : Duration) : Json :=
  .ofFields [("secs", .ofNat (seconds d)), ("nanos", .ofNat (subsecond d))]

/-- The record of a duration, or `null`. -/
def optionToJson : Option Duration → Json
  | some d => toJson d
  | none => .null

end Duration

/-- Reads a lifetime. -/
def Lifetime.ofJson? (j : Json) : Option Lifetime :=
  match j.record? true ["expires_in", "no_expiration"] with
  | some [ttl, endless] => do
    let ttl ← Json.withDefault? none (Json.asOption? Duration.ofJson?) ttl
    let endless ← Json.withDefault? false Json.asBool? endless
    some ⟨ttl, endless⟩
  | _ => none

/-- The record of a lifetime. -/
def Lifetime.toJson (l : Lifetime) : Json :=
  .ofFields [("expires_in", Duration.optionToJson l.ttl), ("no_expiration", .bool l.endless)]

/-- Reads store settings. -/
def StoreSettings.ofJson? (j : Json) : Option StoreSettings :=
  match j.record? true ["gc_period", "default_ttl"] with
  | some [period, ttl] => do
    let period ← Json.withDefault? ({} : StoreSettings).gcPeriod Duration.ofJson? period
    let ttl ← Json.withDefault? none (Json.asOption? Duration.ofJson?) ttl
    some ⟨period, ttl⟩
  | _ => none

/-- The record of store settings. -/
def StoreSettings.toJson (c : StoreSettings) : Json :=
  .ofFields [("gc_period", Duration.toJson c.gcPeriod),
    ("default_ttl", Duration.optionToJson c.defaultTtl)]

end PeerRecords
