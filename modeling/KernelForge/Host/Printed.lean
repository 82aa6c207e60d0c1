/-
Host values as they are printed in messages.
-/
import KernelForge.Decimal.Shortest
import KernelForge.Host.Basic

namespace KernelForge.HostValue

mutual

/-- A value of a host type as it is printed. -/
def printed (h : HostTy) (v : HostValue) : String :=
  match v with
  | .bool b => if b then "true" else "false"
  | .int i => toString i
  | .uint u => toString u
  | .float32 x => x.text
  | .float64 x => x.text
  | .text s => s
  | .list vs =>
    match h with
    | .array _ t | .slice t => "[" ++ " ".intercalate (printedItems t vs) ++ "]"
    | .struct fs => "\x7b" ++ " ".intercalate (printedFields fs vs) ++ "\x7d"
    | _ => ""
  | .other =>
    match h with
    | .complex64 => "(0+0i)"
    | _ => "<nil>"

def printedItems (t : HostTy) (vs : List HostValue) : List String :=
  match vs with
  | [] => []
  | v :: vs => printed t v :: printedItems t vs

def printedFields (fs : List (Bool × HostTy)) (vs : List HostValue) : List String :=
  match vs with
  | [] => []
  | v :: vs =>
    match fs with
    | [] => []
    | (_, t) :: fs => printed t v :: printedFields fs vs

end

end KernelForge.HostValue
