import Mathlib.Tactic.Common

/-!
# Durations and points in time, as `infos/util/time.h` has them

Both subtractions of the source take their operands the wrong way round, so that the one of two
points, which is made of the other, comes out right.
-/

namespace Infos.Kernel

/-- `Duration` in nanoseconds. -/
structure Nanoseconds where
  _val : UInt64
  deriving DecidableEq, Repr

namespace Nanoseconds

instance : Add Nanoseconds := ⟨fun l r => ⟨l._val + r._val⟩⟩

instance : Sub Nanoseconds := ⟨fun l r => ⟨r._val - l._val⟩⟩

instance : LT Nanoseconds := ⟨fun l r => l._val < r._val⟩

instance (l r : Nanoseconds) : Decidable (l < r) := inferInstanceAs (Decidable (l._val < r._val))

/-- `operator-=`, which takes its operands the right way round. -/
def reduce (d amt : Nanoseconds) : Nanoseconds := ⟨d._val - amt._val⟩

def count (d : Nanoseconds) : UInt64 := d._val

theorem add_val (l r : Nanoseconds) : (l + r)._val = l._val + r._val := rfl

theorem lt_iff (l r : Nanoseconds) : l < r ↔ l._val.toNat < r._val.toNat := Iff.rfl

end Nanoseconds

/-- `TimepointImpl` -/
structure Timepoint where
  _val : Nanoseconds
  deriving DecidableEq, Repr

namespace Timepoint

instance : HAdd Timepoint Nanoseconds Timepoint := ⟨fun t amt => ⟨t._val + amt⟩⟩

instance : HSub Timepoint Timepoint Nanoseconds := ⟨fun lhs rhs => rhs._val - lhs._val⟩

theorem add_val (t : Timepoint) (d : Nanoseconds) : (t + d)._val = t._val + d := rfl

theorem sub_val (t u : Timepoint) : (t - u)._val = t._val._val - u._val._val := rfl

end Timepoint

/-- The time of day, less its date. -/
structure TimeOfDay where
  hours : UInt16
  minutes : UInt16
  seconds : UInt16
  deriving DecidableEq, Repr

end Infos.Kernel
