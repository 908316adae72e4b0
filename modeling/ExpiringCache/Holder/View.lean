import ExpiringCache.Holder.Validity
import ExpiringCache.Text.Decimal

/-!
# Views of holders

What an observer sees of a holder: its fields, its timestamps as instants, and whether it is
invalid now. A description gives the fields in one line of text.
-/

namespace ExpiringCache

/-- A holder as it is seen at the reading of a clock. -/
structure HolderView where
  idle : Int32
  cache : Int32
  created : Except Overflow Int64
  accessed : Except Overflow Int64
  uses : UInt32
  complete : Bool
  released : Bool
  invalid : Except Overflow Bool
  form : Form

namespace Holder

variable {α : Type}

def view (clock : Clock) (holder : Holder α) : HolderView where
  idle := holder.maxIdle
  cache := holder.maxCache
  created := clock.instantOf holder.created
  accessed := clock.instantOf holder.accessed
  uses := holder.uses
  complete := holder.isComplete
  released := holder.isReleased
  invalid := holder.isInvalid clock
  form := holder.form

def flagText (flag : Bool) : String := if flag then "true" else "false"

/-- The fields of a holder in one line. -/
def describe (holder : Holder α) : String :=
  "EntryHolder \x7b mode: " ++ holder.form.label ++
    ", complete: " ++ flagText holder.isComplete ++
    ", released: " ++ flagText holder.isReleased ++
    ", creation_offset: " ++ Decimal.ofInt holder.created.toInt ++
    ", last_access_offset: " ++ Decimal.ofInt holder.accessed.toInt ++
    ", max_idle_secs: " ++ Decimal.ofInt holder.maxIdle.toInt ++
    ", max_cache_secs: " ++ Decimal.ofInt holder.maxCache.toInt ++
    ", use_count: " ++ Decimal.ofNat holder.uses.toNat ++ " \x7d"

end Holder

end ExpiringCache
