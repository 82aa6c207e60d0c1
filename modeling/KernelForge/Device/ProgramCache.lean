/-
A cache of built programs, and a store of program binaries.

A cache keeps as many programs as its capacity allows, and drops the one that has not been
used for the longest time.  Programs are found through the hash of their source and options;
programs with the same hash share a bucket, in which the exact source and options decide.

A store outlives contexts.  In it a binary is kept under a digest of everything that it depends on:
the device, the version of its language, the options and the source.  Each of them is preceded by
its length, so that no two lists of fields make the same message.  A store is written with one line
for each binary, its key before it.
-/
import KernelForge.Digest.Blake2b
import KernelForge.Fault
import KernelForge.Text.Encoded

namespace KernelForge

/-- What a program is built from. -/
structure ProgramKey where
  source : String
  options : String
deriving DecidableEq, Repr, Inhabited

namespace ProgramKey

def hash (k : ProgramKey) : UInt64 := mixHash (Hashable.hash k.options) (Hashable.hash k.source)

end ProgramKey

/-- What has happened to a cache. -/
structure CacheStats where
  hits : Nat := 0
  misses : Nat := 0
  builds : Nat := 0
  loads : Nat := 0
  evictions : Nat := 0
deriving DecidableEq, Repr, Inhabited

/-- A program in a cache, with a number that no other entry of the cache has had. -/
structure CacheEntry where
  id : Nat
  key : ProgramKey
  hash : UInt64
  program : Nat
deriving DecidableEq, Repr, Inhabited

/-- A cache of programs. -/
structure ProgramCache where
  capacity : Nat := 64
  /-- The entries, the most recently used first. -/
  order : List CacheEntry := []
  /-- The numbers of the entries by their hash. -/
  buckets : List (UInt64 × List Nat) := []
  /-- The number of the next entry. -/
  nextId : Nat := 0
  stats : CacheStats := {}
deriving DecidableEq, Repr, Inhabited

namespace ProgramCache

/-- A cache keeps at least one program. -/
def withCapacity (capacity : Int) : ProgramCache := { capacity := (max capacity 1).toNat }

def size (c : ProgramCache) : Nat := c.order.length

/-- The entries of a bucket. -/
def bucket (c : ProgramCache) (hash : UInt64) : List Nat := (c.buckets.lookup hash).getD []

/-- Replaces a bucket; an empty one is dropped. -/
def setBucket (c : ProgramCache) (hash : UInt64) (ids : List Nat) : ProgramCache :=
  let rest := c.buckets.filter fun b => b.1 != hash
  { c with buckets := if ids.isEmpty then rest else (hash, ids) :: rest }

/-- The entry of a key with a given hash. -/
def find? (c : ProgramCache) (k : ProgramKey) (hash : UInt64) : Option CacheEntry :=
  (c.bucket hash).findSome? fun id => c.order.find? fun e => e.id = id && e.key = k

/-- Makes an entry the most recently used one. -/
def touch (c : ProgramCache) (e : CacheEntry) : ProgramCache :=
  { c with order := e :: c.order.filter fun x => x.id != e.id }

/-- Looks a program up. -/
def lookup (hash : ProgramKey → UInt64) (c : ProgramCache) (k : ProgramKey) :
    Option Nat × ProgramCache :=
  match c.find? k (hash k) with
  | none => (none, { c with stats := { c.stats with misses := c.stats.misses + 1 } })
  | some e =>
    (some e.program, { c.touch e with stats := { c.stats with hits := c.stats.hits + 1 } })

/-- Drops the entry that has not been used for the longest time. -/
def evict (c : ProgramCache) : ProgramCache :=
  match c.order.getLast? with
  | none => c
  | some e =>
    let c := c.setBucket e.hash ((c.bucket e.hash).erase e.id)
    { c with
      order := c.order.dropLast
      stats := { c.stats with evictions := c.stats.evictions + 1 } }

/-- Drops a number of entries. -/
def evictMany : Nat → ProgramCache → ProgramCache
  | 0, c => c
  | n + 1, c => evictMany n c.evict

/-- Puts a program into the cache, and gives the one that is kept for the key: the first. -/
def insert (hash : ProgramKey → UInt64) (c : ProgramCache) (k : ProgramKey) (program : Nat) :
    Nat × ProgramCache :=
  match c.find? k (hash k) with
  | some e => (e.program, c.touch e)
  | none =>
    let e : CacheEntry := { id := c.nextId, key := k, hash := hash k, program }
    let c := c.setBucket e.hash (c.bucket e.hash ++ [e.id])
    let c := { c with order := e :: c.order, nextId := c.nextId + 1 }
    (program, evictMany (c.size - c.capacity) c)

/-- Drops every entry. -/
def clear (c : ProgramCache) : ProgramCache := { c with order := [], buckets := [] }

def countBuild (c : ProgramCache) : ProgramCache :=
  { c with stats := { c.stats with builds := c.stats.builds + 1 } }

def countLoad (c : ProgramCache) : ProgramCache :=
  { c with stats := { c.stats with loads := c.stats.loads + 1 } }

end ProgramCache
end KernelForge

namespace KernelForge

/-- A field with its length before it. -/
def measured (field : String) : List UInt8 :=
  Bytes.ofNat 8 field.utf8ByteSize ++ field.toUTF8.toList

/-- The message whose digest is the key of a program. -/
def keyMessage (device version source options : String) : List UInt8 :=
  [device, version, options, source].flatMap measured

/-- The key of a program in a store. -/
def binaryKey (device version source options : String) : List UInt8 :=
  Blake2b.digest (keyMessage device version source options)

/-- Program binaries by their keys. -/
structure BinaryStore where
  entries : List (List UInt8 × List UInt8) := []
  closed : Bool := false
deriving Repr, Inhabited

namespace BinaryStore

/-- The complaint of a closed store. -/
def closedFault : Fault := .plain "DB Closed"

/-- The binary under a key. -/
def load (s : BinaryStore) (key : List UInt8) : Except Fault (Option (List UInt8)) :=
  if s.closed then .error (.within "cannot read program binary" closedFault)
  else .ok (s.entries.lookup key)

/-- Keeps a binary under a key. -/
def store (s : BinaryStore) (key binary : List UInt8) : Except Fault BinaryStore :=
  if s.closed then .error (.within "cannot write program binary" closedFault)
  else .ok { s with entries := (key, binary) :: s.entries.filter fun e => e.1 != key }

/-- The number of binaries. -/
def size (s : BinaryStore) : Except Fault Nat :=
  if s.closed then .error closedFault else .ok s.entries.length

def close (s : BinaryStore) : BinaryStore := { s with closed := true }

/-- A store as text. -/
def text (s : BinaryStore) : String :=
  String.join (s.entries.map fun (key, binary) =>
    Text.hexOfBytes key ++ " " ++ Text.hexOfBytes binary ++ "\n")

/-- The store that a text was written for. -/
def ofText (text : String) : BinaryStore :=
  { entries := (text.splitOn "\n").filterMap fun line =>
      match line.splitOn " " with
      | [key, binary] => some (Text.bytesOfHex key.toList, Text.bytesOfHex binary.toList)
      | _ => none }

end BinaryStore
end KernelForge
