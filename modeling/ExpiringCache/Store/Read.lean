import ExpiringCache.Store

/-!
# Reading entries

A peek looks at an entry and changes nothing. A get does the same and records the access, the use
and whether the value was found. In a racing read another party releases the holder at the moment
at which the check of validity first reads the base epoch: the limits still decide, and a read that
they let through finds the value gone.
-/

namespace ExpiringCache.Store

variable {α : Type}

/-- The value of a holder that passed the check, for a read that leaves no trace. -/
def peekHolder (codec : Codec α) (key : String) (handle : Handle) (store : Store α) :
    Except StoreError α :=
  match store.pool[handle]? with
  | none => .error (.expired key)
  | some holder =>
    match holder.peek codec with
    | .error reason => .error (.holder reason)
    | .ok none => .error (.expired key)
    | .ok (some value) => .ok value

/-- The value of a holder that passed the check, for a read that is recorded. The access is
recorded before the value is looked at. -/
def getHolder (codec : Codec α) (key : String) (handle : Handle) (store : Store α) :
    Except StoreError α × Store α :=
  let accessed := store.modify handle (Holder.access store.clock)
  match accessed.peekHolder codec key handle with
  | .ok value => (.ok value, (accessed.modify handle (Holder.addUses 1)).record .hit)
  | .error (.expired name) => (.error (.expired name), accessed.record .miss)
  | .error reason => (.error reason, accessed)

/-- The value under a key, without a trace. -/
def peek (codec : Codec α) (key : String) (store : Store α) : Except StoreError α :=
  match store.find? key with
  | none => .error (.notFound key)
  | some (handle, holder) =>
    match holder.isInvalid store.clock with
    | .error overflow => .error (.overflow overflow)
    | .ok true => .error (.expired key)
    | .ok false => store.peekHolder codec key handle

/-- The value under a key, recorded as an access. An expired entry stays for a sweep. -/
def get (codec : Codec α) (key : String) (store : Store α) : Except StoreError α × Store α :=
  match store.find? key with
  | none => (.error (.notFound key), store.record .miss)
  | some (handle, holder) =>
    match holder.isInvalid store.clock with
    | .error overflow => (.error (.overflow overflow), store)
    | .ok true => (.error (.expired key), store.record .miss)
    | .ok false => store.getHolder codec key handle

/-- The store after the other party of a racing read has acted on a holder. -/
def interfere (handle : Handle) (holder : Holder α) (store : Store α) : Store α :=
  if holder.consultsBase then store.release handle else store

/-- A peek that races with a release of the holder. -/
def racingPeek (codec : Codec α) (key : String) (store : Store α) :
    Except StoreError α × Store α :=
  match store.find? key with
  | none => (.error (.notFound key), store)
  | some (handle, holder) =>
    let raced := store.interfere handle holder
    match holder.isInvalid store.clock with
    | .error overflow => (.error (.overflow overflow), raced)
    | .ok true => (.error (.expired key), raced)
    | .ok false => (raced.peekHolder codec key handle, raced)

/-- A get that races with a release of the holder. -/
def racingGet (codec : Codec α) (key : String) (store : Store α) :
    Except StoreError α × Store α :=
  match store.find? key with
  | none => (.error (.notFound key), store.record .miss)
  | some (handle, holder) =>
    let raced := store.interfere handle holder
    match holder.isInvalid store.clock with
    | .error overflow => (.error (.overflow overflow), raced)
    | .ok true => (.error (.expired key), raced.record .miss)
    | .ok false => raced.getHolder codec key handle

end ExpiringCache.Store
