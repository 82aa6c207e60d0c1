/-
Running checked code.

Terms and actions are run by recursion on themselves.  A call goes through a parameter, which
stands for running functions with one call less to spare, so the depth of calls bounds the
recursion; and a loop runs on a budget of rounds.
-/
import KernelForge.Lanes.Arithmetic
import KernelForge.Program.Exec
import KernelForge.Program.Term

namespace KernelForge

/-- The part of the work that is being done: one item of a range. -/
structure WorkItem where
  offset : Int
  extent : Int
  id : Nat
deriving Repr, Inhabited

namespace WorkItem

/-- The number of an item counts from the offset of the range, and wraps. -/
def globalId (w : WorkItem) : BitVec 64 := BitVec.ofInt 64 (w.offset + w.id)

/-- The answer of a work-item function for a dimension; ranges have one dimension only. -/
def ask (w : WorkItem) (fn : WorkItemFn) (dim : BitVec 32) : BitVec 64 :=
  if dim = 0 then
    match fn with
    | .globalId => w.globalId
    | .globalSize | .localSize => BitVec.ofInt 64 w.extent
    | .globalOffset => BitVec.ofInt 64 w.offset
    | .localId => BitVec.ofNat 64 w.id
    | .groupId => 0
    | .numGroups => 1
  else
    match fn with
    | .globalSize | .localSize | .numGroups => 1
    | _ => 0

end WorkItem

/-- What a term can see: the work item, the variables, and the place being updated. -/
structure Frame where
  item : WorkItem
  vars : Vars
  current? : Option Loc := none
deriving Inhabited

namespace Value

/-! ### Operations on values -/

/-- The word of an atom. -/
def toWord (w : WordWidth) (signed : Bool) : Value → Exec (BitVec w.bits)
  | lanes (.word w' signed') x =>
    if h : w' = w ∧ signed' = signed then do
      let c ← Exec.ofLanes x.toAtom
      return h.1 ▸ c
    else .crash
  | _ => .crash

/-- The truth value of an atom. -/
def toBool : Value → Exec Bool
  | lanes .bool x => .ofLanes (x.toAtom.map Truth.value)
  | _ => .crash

def toPointer : Value → Exec Pointer
  | pointer p => .pure p
  | _ => .crash

def cast (s : Scalar) : Value → Exec Value
  | lanes _ x => do return lanes s.register (← .ofLanes (castTo s x))
  | _ => .crash

/-- The lanes of values, which must be of one element type. -/
def lanesOf (e : Elem) : List Value → Exec (List (Lanes e))
  | [] => .pure []
  | lanes f x :: vs =>
    if h : f = e then do
      let xs ← lanesOf e vs
      return (h ▸ x) :: xs
    else .crash
  | _ :: _ => .crash

def concat (s : Scalar) (n : Nat) (vs : List Value) : Exec Value := do
  let xs ← lanesOf s.register vs
  return lanes s.register (← .ofLanes (Lanes.concat n xs))

def unary (op : Operator) (t : Ty) : Value → Exec Value
  | lanes e x => do
    let y ← Exec.ofLanes (x.unary op)
    return lanes e (← .ofLanes (wrapTo t y))
  | _ => .crash

def binary (op : Operator) (t : Ty) : Value → Value → Exec Value
  | lanes e x, lanes f y =>
    if h : f = e then do
      match ← Exec.ofLanes (x.binary op (h ▸ y)) with
      | .same z => return lanes e (← .ofLanes (wrapTo t z))
      | .truths z => return lanes .bool (← .ofLanes (wrapTo t z))
    else .crash
  | _, _ => .crash

def field (i : Nat) : Value → Exec Value
  | record vs =>
    match vs[i]? with
    | some v => .pure v
    | none => .crash
  | _ => .crash

def select (is : List Nat) : Value → Exec Value
  | lanes e x => do return lanes e (← .ofLanes (selectLanes x is))
  | _ => .crash

/-- A function of the device, applied to values of one element type. -/
def math (fn : Builtin) (t : Ty) : List Value → Exec Value
  | lanes e x :: vs => do
    let xs ← lanesOf e (lanes e x :: vs)
    let y ← Exec.ofLanes (Lanes.math fn.name xs)
    return lanes e (← .ofLanes (wrapTo t y))
  | _ => .crash

/-- The value that an atomic function stores, given the old one. -/
def atomicNext (fn : AtomicFn) (s : Scalar) (old : Value) (args : List Value) : Exec Value :=
  let t := Ty.scalar s
  let one := ofInt s.register 1
  match fn, args with
  | .add, [x] => binary .add t old x
  | .sub, [x] => binary .sub t old x
  | .and, [x] => binary .and t old x
  | .or, [x] => binary .or t old x
  | .xor, [x] => binary .xor t old x
  | .inc, [] => binary .add t old one
  | .dec, [] => binary .sub t old one
  | .xchg, [x] => .pure x
  | .min, [x] => math .min t [old, x]
  | .max, [x] => math .max t [old, x]
  | .cmpxchg, [expected, x] => do
    let same ← binary .eql (.scalar .bool) old expected
    if ← same.toBool then return x else return old
  | _, _ => .crash

/-- Changes an integer in memory and gives the old one. -/
def atomic (fn : AtomicFn) (s : Scalar) (p : Pointer) (args : List Value) : Exec Value :=
  match p.memory? with
  | none => .fail .nullPointer
  | some m => do
    let old ← Exec.load m p.offset (.scalar s)
    let next ← atomicNext fn s old args
    Exec.store m p.offset (.scalar s) next
    return old

end Value

/-- Runs a function of the program on arguments. -/
abbrev Caller := String → List Value → Exec Value

/-! ### Terms -/

mutual

/-- The value of a term. -/
def Term.eval (call : Caller) (f : Frame) (t : Term) : Exec Value :=
  match t with
  | .const e x => .pure (.lanes e x)
  | .var slot => .pure (f.vars.getD slot .nothing)
  | .current =>
    match f.current? with
    | some l => l.load f.vars
    | none => .crash
  | .cast s x => do
    let v ← x.eval call f
    v.cast s
  | .concat s n xs => do
    let vs ← Term.evalAll call f xs
    Value.concat s n vs
  | .unary op t x => do
    let v ← x.eval call f
    v.unary op t
  | .binary op t x y => do
    let v ← x.eval call f
    let w ← y.eval call f
    v.binary op t w
  | .and x y => do
    let v ← x.eval call f
    if ← v.toBool then
      let w ← y.eval call f
      return .ofBool (← w.toBool)
    else return .ofBool false
  | .or x y => do
    let v ← x.eval call f
    if ← v.toBool then return .ofBool true
    else
      let w ← y.eval call f
      return .ofBool (← w.toBool)
  | .cond test x y => do
    let v ← test.eval call f
    if ← v.toBool then x.eval call f else y.eval call f
  | .advance stride ptr n => do
    let p ← ptr.eval call f
    let v ← n.eval call f
    let i ← v.toWord .w64 true
    let p ← p.toPointer
    return .pointer { p with offset := p.offset + i * BitVec.ofInt 64 stride }
  | .record xs => do
    let vs ← Term.evalAll call f xs
    return .record vs
  | .load p => do
    let l ← p.locate call f
    l.load f.vars
  | .address p => do
    match ← p.locate call f with
    | .mem memory offset _ => return .pointer ⟨some memory, offset⟩
    | _ => .crash
  | .field i x => do
    let v ← x.eval call f
    v.field i
  | .lanes is x => do
    let v ← x.eval call f
    v.select is
  | .discard x => do
    let _ ← x.eval call f
    return .nothing
  | .workItem fn dim => do
    let v ← dim.eval call f
    let d ← v.toWord .w32 false
    return .lanes .uint64 (.atom (f.item.ask fn d))
  | .atomic fn s ptr args => do
    let p ← ptr.eval call f
    let vs ← Term.evalAll call f args
    Value.atomic fn s (← p.toPointer) vs
  | .math fn t args => do
    let vs ← Term.evalAll call f args
    Value.math fn t vs
  | .call fn args => do
    let vs ← Term.evalAll call f args
    call fn vs

/-- The values of some terms, from left to right. -/
def Term.evalAll (call : Caller) (f : Frame) (ts : List Term) : Exec (List Value) :=
  match ts with
  | [] => .pure []
  | t :: ts => do
    let v ← t.eval call f
    let vs ← Term.evalAll call f ts
    return v :: vs

/-- The location of a place. -/
def Place.locate (call : Caller) (f : Frame) (p : Place) : Exec Loc :=
  match p with
  | .var slot => .pure (.var slot)
  | .deref elem ptr index => do
    let p ← ptr.eval call f
    let v ← index.eval call f
    let i ← v.toWord .w64 true
    let p ← p.toPointer
    match p.memory? with
    | none => .fail .nullPointer
    | some m => return .mem m (p.offset + i * BitVec.ofNat 64 elem.size) elem
  | .field p fields i => do
    let l ← p.locate call f
    return l.fieldOf fields i
  | .lanes p is => do
    let l ← p.locate call f
    return .lanes l is

end

/-! ### Actions -/

/-- How to go on after an action. -/
inductive Flow where
  | next
  | brk
  | cont
  | ret (v : Value)
deriving Inhabited

/-- An action of a function: it may change the variables. -/
abbrev Step := Vars → Exec (Flow × Vars)

/-- Runs a loop on a budget of rounds. -/
def iterate (test : Vars → Exec Bool) (body post : Step) : Nat → Vars → Exec (Flow × Vars)
  | 0, _ => fun st => (.exhausted, st)
  | rounds + 1, vars => fun st =>
    match test vars st with
    | (.ok true, st) =>
      match body vars st with
      | (.ok (.brk, vars), st) => (.ok (.next, vars), st)
      | (.ok (.ret v, vars), st) => (.ok (.ret v, vars), st)
      | (.ok (_, vars), st) =>
        match post vars st with
        | (.ok (_, vars), st) => iterate test body post rounds vars st
        | r => r
      | r => r
    | (.ok false, st) => (.ok (.next, vars), st)
    | (.failed e, st) => (.failed e, st)
    | (.crashed c, st) => (.crashed c, st)
    | (.exhausted, st) => (.exhausted, st)

/-- Runs an action. -/
def Action.run (call : Caller) (item : WorkItem) (rounds : Nat) (a : Action) (vars : Vars) :
    Exec (Flow × Vars) :=
  match a with
  | .skip => .pure (.next, vars)
  | .eval x => do
    let _ ← x.eval call { item, vars }
    return (.next, vars)
  | .declare slot t init => do
    let v ← match init with
      | some x => x.eval call { item, vars }
      | none => .ofExcept (Value.zero t)
    return (.next, vars.setIfInBounds slot v)
  | .assign p x => do
    let v ← x.eval call { item, vars }
    let l ← p.locate call { item, vars }
    return (.next, ← l.store vars v)
  | .update p next => do
    let l ← p.locate call { item, vars }
    let v ← next.eval call { item, vars, current? := some l }
    return (.next, ← l.store vars v)
  | .seq first second => do
    match ← first.run call item rounds vars with
    | (.next, vars) => second.run call item rounds vars
    | (flow, vars) => return (flow, vars)
  | .branch test yes no => do
    let v ← test.eval call { item, vars }
    if ← v.toBool then yes.run call item rounds vars else no.run call item rounds vars
  | .loop test post body =>
    iterate
      (fun vars => do
        match test with
        | some x =>
          let v ← x.eval call { item, vars }
          v.toBool
        | none => return true)
      (fun vars => body.run call item rounds vars)
      (fun vars => post.run call item rounds vars)
      rounds vars
  | .ret none => .pure (.ret .nothing, vars)
  | .ret (some x) => do
    let v ← x.eval call { item, vars }
    return (.ret v, vars)
  | .brk => .pure (.brk, vars)
  | .cont => .pure (.cont, vars)

/-! ### Calls -/

/-- The greatest number of calls within one another. -/
def maxCallDepth : Nat := 64

/-- The variables of a call before its body runs. -/
def CheckedFn.frame (fn : CheckedFn) (args : List Value) : Vars :=
  (args.take fn.slots ++ List.replicate (fn.slots - args.length) Value.nothing).toArray

/-- The value that a function gives, once its body has run. -/
def CheckedFn.result? (fn : CheckedFn) : Flow → Exec Value
  | .ret .nothing | .next | .brk | .cont =>
    if fn.result = .void then .pure .nothing else .fail (.noResult fn.name)
  | .ret v => .pure v

/-- Runs functions with a number of calls to spare. -/
def Program.call (p : Program) (item : WorkItem) (rounds : Nat) : Nat → Caller
  | 0, name, _ => .fail (.stackOverflow name maxCallDepth)
  | depth + 1, name, args =>
    match p.func? name with
    | none => .crash
    | some fn => do
      let (flow, _) ← fn.body.run (p.call item rounds depth) item rounds (fn.frame args)
      fn.result? flow

end KernelForge
