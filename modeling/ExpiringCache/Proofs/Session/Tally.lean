import ExpiringCache.Proofs.Session.Marks
import ExpiringCache.Proofs.Store.SweepEffect

/-!
# What is counted over a run

A tally counts in unbounded numbers what the operations of a run have done. It is read off the
answers, except where the answer does not tell enough: whether a key that was put or removed was
there, whether its holder was released before, and which holder was read. A store accounts for a
tally if its counters, its size and the use counts of its holders have moved as the tally says.
-/
namespace ExpiringCache

variable {α : Type}

def LogLine.released : LogLine → Nat
  | .started _ => 0
  | .swept released => released

def LogLine.total (lines : List LogLine) : Nat :=
  lines.foldl (fun total line => total + line.released) 0

/-- What is counted, in unbounded numbers. -/
structure Tally where
  /-- Gets that returned a value. -/
  hits : Nat := 0
  /-- Gets that found no entry, or an expired one. -/
  misses : Nat := 0
  /-- Puts that succeeded. -/
  puts : Nat := 0
  /-- Removals of an entry whose holder nobody had released. -/
  removals : Nat := 0
  /-- Holders that sweeps say they released. -/
  expirations : Nat := 0
  /-- Puts that succeeded on a key that was there. -/
  overwrites : Nat := 0
  /-- Entries that a removal or a sweep took out after another party had released their holders. -/
  drops : Nat := 0
  /-- Uses of each holder: the gets that returned its value, and the increments asked for. -/
  uses : Handle → Nat := fun _ => 0

namespace Tally

/-- The tally of one stretch of a run after another. -/
def add (first second : Tally) : Tally where
  hits := first.hits + second.hits
  misses := first.misses + second.misses
  puts := first.puts + second.puts
  removals := first.removals + second.removals
  expirations := first.expirations + second.expirations
  overwrites := first.overwrites + second.overwrites
  drops := first.drops + second.drops
  uses := fun handle => first.uses handle + second.uses handle

theorem zero_add (tally : Tally) : Tally.add {} tally = tally := by
  simp only [add, Nat.zero_add]

def ofUses (handle : Handle) (count : Nat) : Tally where
  uses := fun other => if other = handle then count else 0

/-- What a get of a key that is linked to a holder counts: a hit and a use if it returns a value, a
miss if it finds no entry or an expired one, and nothing if the value cannot be read or a check
overflows. -/
def ofGet (linked : Option Handle) : Answer α → Tally
  | .value _ => { hits := 1, uses := fun handle => if linked = some handle then 1 else 0 }
  | .storeError (.notFound _) => { misses := 1 }
  | .storeError (.expired _) => { misses := 1 }
  | _ => {}

/-- What a put to a key that was linked to a holder, or was not, counts if it succeeds. -/
def ofPut (linked : Option Handle) : Answer α → Tally
  | .done => { puts := 1, overwrites := linked.isSome.toNat }
  | _ => {}

/-- What a removal counts: a removal if it finds the key with a holder that is not released. -/
def ofRemove (store : Store α) (key : String) : Tally :=
  match store.find? key with
  | some (_, holder) => if holder.isReleased then { drops := 1 } else { removals := 1 }
  | none => {}

/-- What sweeps count: the holders that they say they released. Their other releases, which the
marks tell of, have found the holder released before. -/
def ofSweeps (marks : List (Mark α)) : Answer α → Tally
  | .count released => { expirations := released, drops := marks.countP Mark.isLost }
  | .log lines =>
    { expirations := LogLine.total lines, drops := marks.countP Mark.isLost }
  | _ => {}

/-- What an operation on a holder counts: the increments that it asks for. -/
def ofHolder (handle : Handle) : HolderOperation → Tally
  | .addUses count => ofUses handle count
  | .addUsesRacing parties count => ofUses handle (parties * count)
  | _ => {}

end Tally

/-- Counters that have moved by a tally. -/
def Counters.plus (counters : Counters) (tally : Tally) : Counters where
  hits := counters.hits + UInt64.ofNat tally.hits
  misses := counters.misses + UInt64.ofNat tally.misses
  puts := counters.puts + UInt64.ofNat tally.puts
  removals := counters.removals + UInt64.ofNat tally.removals
  expirations := counters.expirations + UInt64.ofNat tally.expirations

theorem Counters.plus_add (counters : Counters) (first second : Tally) :
    counters.plus (first.add second) = (counters.plus first).plus second := by
  simp only [Counters.plus, Tally.add, UInt64.ofNat_add, UInt64.add_assoc]

namespace Store

/-- The use count of a holder, if it has been made. -/
def usesOf (store : Store α) (handle : Handle) : UInt32 :=
  ((store.pool[handle]?).map Holder.uses).getD 0

/-- A store that has moved from another as a tally says. -/
structure Accounts (store next : Store α) (tally : Tally) : Prop where
  counters : next.counters = store.counters.plus tally
  entries : store.size + tally.puts = next.size + tally.removals + tally.expirations +
    tally.overwrites + tally.drops
  uses : ∀ handle, next.usesOf handle = store.usesOf handle + UInt32.ofNat (tally.uses handle)

variable {store next last : Store α} {tally more : Tally}

theorem Accounts.trans (h : store.Accounts next tally) (h' : next.Accounts last more) :
    store.Accounts last (tally.add more) where
  counters := by rw [h'.counters, h.counters, Counters.plus_add]
  entries := by
    have hfirst := h.entries
    have hsecond := h'.entries
    simp only [Tally.add]
    omega
  uses := by
    intro handle
    rw [h'.uses, h.uses, Tally.add, UInt32.ofNat_add, UInt32.add_assoc]

theorem Accounts.after (h' : next.Accounts last tally) (h : store.Accounts next {}) :
    store.Accounts last tally := by
  simpa only [Tally.zero_add] using h.trans h'

/-- Nothing is counted where the counters, the entries and the use counts stay. -/
theorem Accounts.of_same (counters : next.counters = store.counters)
    (entries : next.entries = store.entries)
    (uses : ∀ handle, next.usesOf handle = store.usesOf handle) : store.Accounts next {} where
  counters := by simp [counters, Counters.plus]
  entries := by simp [size, entries]
  uses := by simp [uses]

theorem Accounts.refl (store : Store α) : store.Accounts store {} :=
  .of_same rfl rfl fun _ => rfl

theorem usesOf_modify_of_found {handle : Handle} {holder : Holder α}
    (found : store.pool[handle]? = some holder) (f : Holder α → Holder α) (other : Handle) :
    (store.modify handle f).usesOf other =
      if other = handle then (f holder).uses else store.usesOf other := by
  rw [usesOf, pool_modify]
  by_cases heq : other = handle
  · subst heq
    simp [found]
  · simp [heq, Ne.symm heq, usesOf]

theorem accounts_modify {handle : Handle} {f : Holder α → Holder α}
    (h : ∀ holder, store.pool[handle]? = some holder → (f holder).uses = holder.uses) :
    store.Accounts (store.modify handle f) {} := by
  refine .of_same rfl rfl fun other => ?_
  rw [usesOf, pool_modify, usesOf]
  split
  next heq =>
    subst heq
    cases found : store.pool[handle]? with
    | none => rfl
    | some holder => simp [h holder found]
  next => rfl

theorem accounts_uses {handle : Handle} {holder : Holder α}
    (found : store.pool[handle]? = some holder) {f : Holder α → Holder α} {count : Nat}
    (h : (f holder).uses = holder.uses + UInt32.ofNat count) :
    store.Accounts (store.modify handle f) (Tally.ofUses handle count) where
  counters := by simp [Counters.plus, Tally.ofUses, modify]
  entries := by simp [Tally.ofUses, size]
  uses := by
    intro other
    rw [usesOf_modify_of_found found, Tally.ofUses]
    split
    next heq => simp [h, heq, usesOf, found]
    next hne => simp [hne]

theorem accounts_release (store : Store α) (handle : Handle) :
    store.Accounts (store.release handle) {} := accounts_modify fun _ _ => rfl

theorem accounts_hit (store : Store α) : store.Accounts (store.record .hit) { hits := 1 } where
  counters := by simp [Counters.plus, record, Counters.record]
  entries := by simp [size]
  uses := by simp [usesOf]

theorem accounts_miss (store : Store α) :
    store.Accounts (store.record .miss) { misses := 1 } where
  counters := by simp [Counters.plus, record, Counters.record]
  entries := by simp [size]
  uses := by simp [usesOf]

end Store

end ExpiringCache
