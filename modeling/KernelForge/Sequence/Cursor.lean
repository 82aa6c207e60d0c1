/-
Positions in sequences on a device.

A cursor stands at an element of a buffer, or at several elements taken together, and then its
element is the tuple of theirs.  In a kernel an element is named by an index that counts from
the cursor.
-/
import KernelForge.Device.Compile
import KernelForge.Formula.Lower

namespace KernelForge

/-- A position in a sequence. -/
inductive Cursor where
  | element (b : TypedBuffer) (index : Int)
  | zip (cs : List Cursor)
deriving Inhabited

namespace Cursor

mutual

/-- The type of the element. -/
def ty : Cursor → Ty
  | element b _ => b.elem
  | zip cs => .tuple (tys cs)

def tys : List Cursor → List Ty
  | [] => []
  | c :: cs => c.ty :: tys cs

end

mutual

/-- A cursor as it is printed. -/
def text : Cursor → String
  | element b index => "buffer<" ++ b.elem.name ++ ">@" ++ toString index
  | zip cs => "zip(" ++ ", ".intercalate (texts cs) ++ ")"

def texts : List Cursor → List String
  | [] => []
  | c :: cs => c.text :: texts cs

end

instance : ToString Cursor := ⟨text⟩

mutual

/-- The cursor `n` positions further on. -/
def advance (n : Int) : Cursor → Cursor
  | element b index => element b (wrap64 (index + n))
  | zip cs => zip (advanceAll n cs)

def advanceAll (n : Int) : List Cursor → List Cursor
  | [] => []
  | c :: cs => advance n c :: advanceAll n cs

end

/-- The context of the memory of the sequence: for several, that of the first. -/
def ctx? : Cursor → Option Nat
  | element b _ => b.ctx?
  | zip [] => none
  | zip (c :: _) => c.ctx?

/-- The fault of two cursors that do not belong together. -/
def apart (first last : Cursor) (what : String) : Fault :=
  .ofKind .argumentType s!"iterators {first} and {last} do not {what}"

/-- The number of positions from one cursor to another; of several, the first ones decide. -/
def distance (first last : Cursor) : Except Fault Int :=
  match first, last with
  | element b i, element c j =>
    if b.buffer = c.buffer then .ok (wrap64 (j - i))
    else .error (apart (element b i) (element c j) "point into the same buffer")
  | element b i, other => .error (apart (element b i) other "point into the same buffer")
  | zip [], other => .error (apart (zip []) other "zip the same sequences")
  | zip (c :: cs), zip (d :: ds) =>
    if cs.length = ds.length then c.distance d
    else .error (apart (zip (c :: cs)) (zip (d :: ds)) "zip the same sequences")
  | zip cs, other => .error (apart (zip cs) other "zip the same sequences")

/-- The number of elements of a range. -/
def count (first last : Cursor) : Except Fault Int :=
  match first.distance last with
  | .error f => .error f
  | .ok n =>
    if n < 0 then
      .error (.ofKind .indexRange
        ("invalid range: last is " ++ toString (wrap64 (-n)) ++ " positions before first"))
    else .ok n

mutual

/-- Binds the element at an index in a kernel, whose arguments get the buffers. -/
def bind (d : Draft) (index : String) (readOnly : Bool) (c : Cursor) : Binding × Draft :=
  match c with
  | element b i =>
    let ((name, _), d) := d.register b.buffer b.elem readOnly
    let offset := if i = 0 then "" else "+" ++ toString i
    ({ type := b.elem, expr := name ++ "[" ++ index ++ offset ++ "]", readOnly }, d)
  | zip cs =>
    let t := (zip cs).ty
    let (fields, d) := bindAll (d.inject t) index readOnly cs
    ({ type := t
       expr := "((" ++ t.name ++ ")\x7b" ++ ", ".intercalate fields ++ "\x7d)"
       fields
       readOnly }, d)

def bindAll (d : Draft) (index : String) (readOnly : Bool) (cs : List Cursor) :
    List String × Draft :=
  match cs with
  | [] => ([], d)
  | c :: cs =>
    let (b, d) := bind d index readOnly c
    let (rest, d) := bindAll d index readOnly cs
    (b.expr :: rest, d)

end

end Cursor
end KernelForge
