/-
Maps.

One remembers the order in which its keys were first stored: the entries are kept in that order, so
the index of a key is its place in the list, and storing a key again replaces the value where it
stands.  The other is shared by several owners: keys come and go, and no order is kept.
-/

namespace KernelForge

/-! ### Maps that keep their order -/

/-- A map whose keys have the index of their first store. -/
structure OrderedMap (α β : Type) where
  entries : List (α × β) := []
deriving Repr, Inhabited

namespace OrderedMap

variable {α β : Type} [DecidableEq α]

def size (m : OrderedMap α β) : Nat := m.entries.length

def keys (m : OrderedMap α β) : List α := m.entries.map Prod.fst

def values (m : OrderedMap α β) : List β := m.entries.map Prod.snd

def get? (m : OrderedMap α β) (k : α) : Option β := m.entries.lookup k

/-- The index of a key. -/
def index? (m : OrderedMap α β) (k : α) : Option Nat := m.entries.findIdx? fun e => e.1 = k

/-- The entry at an index. -/
def at? (m : OrderedMap α β) (i : Nat) : Option (α × β) := m.entries[i]?

/-- Stores a value: a new key goes to the end, a known one keeps its index. -/
def insert (m : OrderedMap α β) (k : α) (v : β) : Nat × OrderedMap α β :=
  match m.index? k with
  | some i => (i, ⟨m.entries.set i (k, v)⟩)
  | none => (m.size, ⟨m.entries ++ [(k, v)]⟩)

/-- What `getOrInsert` found or stored. -/
structure Found (β : Type) where
  index : Nat
  value : β
  loaded : Bool
deriving Repr

/-- The entry of a key, stored first when the key is new. -/
def getOrInsert (m : OrderedMap α β) (k : α) (v : β) : Found β × OrderedMap α β :=
  match m.index? k, m.get? k with
  | some i, some old => (⟨i, old, true⟩, m)
  | _, _ =>
    let (i, m') := m.insert k v
    (⟨i, v, false⟩, m')

end OrderedMap
/-! ### Maps that are shared -/

/-- A map with one value for each key. -/
structure Registry (α β : Type) where
  entries : List (α × β) := []
deriving Repr, Inhabited

namespace Registry

variable {α β : Type} [BEq α]

def size (r : Registry α β) : Nat := r.entries.length

def get? (r : Registry α β) (k : α) : Option β := r.entries.lookup k

/-- The value of a key and whether it was there; a new key gets the given value. -/
def getOrInsert (r : Registry α β) (k : α) (v : β) : β × Bool × Registry α β :=
  match r.get? k with
  | some old => (old, true, r)
  | none => (v, false, ⟨(k, v) :: r.entries⟩)

/-- Removes a key, and gives the value that it had. -/
def remove (r : Registry α β) (k : α) : Option β × Registry α β :=
  (r.get? k, ⟨r.entries.filter fun e => !(e.1 == k)⟩)

/-- The entries, by increasing key. -/
def sorted (r : Registry α β) (le : α → α → Bool) : List (α × β) :=
  r.entries.mergeSort fun a b => le a.1 b.1

end Registry
end KernelForge
