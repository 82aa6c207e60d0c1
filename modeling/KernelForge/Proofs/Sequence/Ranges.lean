/-
Elements of ranges, as kernels read them.

A range starts at some place of a buffer, and a kernel counts from there: its text adds the place to
an index, unless it is zero.  What the device then reads is the element that the index reaches.

Most kernels do their work for every index, the number of the work item.  What a range of items does is
what its items do one after another; and this is said of any order of them, the order of the numbers
being the one that the device takes.
-/
import KernelForge.Proofs.Device.Running
import KernelForge.Proofs.Formula.Lowering
import KernelForge.Proofs.Program.Listings
import KernelForge.Sequence.Kernel

namespace KernelForge

/-! ### Variables in their order -/

namespace Vars

variable {vs ws : List Value} {vars : Vars}

theorem Begin.init (h : Begin (vs ++ ws) vars) : Begin vs vars := by
  intro i v hv
  have hlt := (List.getElem?_eq_some_iff.mp hv).1
  exact h i v (by rw [List.getElem?_append_left hlt]; exact hv)

theorem at_set_ne {i j : Nat} (h : i ≠ j) (vars : Vars) (v : Value) :
    Vars.at (vars.setIfInBounds i v) j = vars.at j := by
  simp only [Vars.at, Array.getD_eq_getD_getElem?, Array.getElem?_setIfInBounds_ne h]

theorem Begin.set (h : Begin vs vars) {i : Nat} (hi : i < vars.size) (v : Value) :
    Begin (vs.set i v) (vars.setIfInBounds i v) := by
  intro j w hw
  by_cases hij : i = j
  · subst hij
    have hlt := (List.getElem?_eq_some_iff.mp hw).1
    rw [List.length_set] at hlt
    rw [List.getElem?_set_self hlt] at hw
    rw [at_set hi]
    exact Option.some.inj hw
  · rw [List.getElem?_set_ne hij] at hw
    rw [at_set_ne hij]
    exact h j w hw

theorem Begin.push (h : Begin vs vars) (hlt : vs.length < vars.size) (v : Value) :
    Begin (vs ++ [v]) (vars.setIfInBounds vs.length v) := by
  intro j w hw
  rcases Nat.lt_or_ge j vs.length with hj | hj
  · rw [List.getElem?_append_left hj] at hw
    rw [at_set_ne (by omega)]
    exact h j w hw
  · rw [List.getElem?_append_right hj] at hw
    obtain ⟨hzero, rfl⟩ := List.getElem?_eq_some_iff.mp hw
    rw [List.length_singleton] at hzero
    obtain rfl : j = vs.length := by omega
    simpa using at_set hlt v

end Vars

/-- A point with at least `n` variables, whose first ones have some values, and with some memories. -/
structure Point.Has (n : Nat) (vs : List Value) (st : Store) (p : Point) : Prop where
  begins : Vars.Begin vs p.vars
  room : n ≤ p.vars.size
  store : p.store = st

namespace Point

variable {n i : Nat} {vs ws : List Value} {v : Value} {st : Store} {p : Point}

theorem Has.init (h : p.Has n (vs ++ ws) st) : p.Has n vs st := ⟨h.begins.init, h.room, h.store⟩

theorem Has.at (h : p.Has n vs st) (hv : vs[i]? = some v) : p.vars.at i = v := h.begins i v hv

theorem Has.set (h : p.Has n vs st) (hi : i < n) (v : Value) : (p.put i v).Has n (vs.set i v) st :=
  ⟨h.begins.set (Nat.lt_of_lt_of_le hi h.room) v, by simpa [put] using h.room, h.store⟩

theorem Has.push (h : p.Has n vs st) (hlt : vs.length < n) (v : Value) :
    (p.put vs.length v).Has n (vs ++ [v]) st :=
  ⟨h.begins.push (Nat.lt_of_lt_of_le hlt h.room) v, by simpa [put] using h.room, h.store⟩

end Point

/-- A statement may start with a name that is neither a type nor a keyword. -/
theorem Listing.begins_name {x : String} (hx : LeadsPlace x) {known : List (List Ty)} {s : Code.Scope}
    (hs : Ty.Heard known s) : Listing.Begins s (.name x) :=
  ⟨_, _, rfl, (hx.starts hs).1, by simpa [Code.Scope.startsSimple] using hx.noLoop⟩

/-! ### Indices -/

namespace Snippet

/-- An index that counts from place `n` on. -/
def shifted (i : Snippet) (n : Nat) : Snippet := if n = 0 then i else i.sum (digits n)

variable {s : Code.Scope} {i : Snippet}

theorem IsStem.legible_shifted (hi : i.IsStem s) (n : Nat) : (i.shifted n).Legible s := by
  unfold shifted
  split
  · exact hi.legible
  · exact hi.legible_sum (isOperand_digits n)

theorem legible_zero_shifted (n : Nat) : ((digits 0).shifted n).Legible s := by
  unfold shifted
  split
  · exact (isOperand_digits 0).legible
  · exact legible_zero_sum (isOperand_digits n)

theorem text_shifted (i : Snippet) (n : Nat) :
    (i.shifted n).text = i.text ++ if n = 0 then "" else "+" ++ toString n := by
  unfold shifted
  split
  · rw [String.append_empty]
  · rw [sum, digits, String.append_assoc]

end Snippet

theorem reach_zero (n : Nat) : reach n 0 = n := by
  unfold reach
  split
  · exact Nat.mod_eq_of_lt (by omega)
  · rfl

section

variable {env : Env} {i : String} {v : Variable} {n : Nat}

/-- An index of a range whose place is added to a counter. -/
theorem Env.indexes_shifted (hfind : env.find? i = some v) (htype : v.type = .scalar .uint)
    (hn : n < 2 ^ 63) :
    ∃ g, env.Indexes ((Snippet.name i).shifted n).tree g ∧ ∀ {vars : Vars} {k : Nat}, k < 2 ^ 32 →
      vars.at v.slot = Scalar.uint.holding k → g vars = pure (Scalar.long.holding (reach n k)) := by
  have hvar : env.Checks (Snippet.name i).tree (.scalar .uint) fun vars => pure (vars.at v.slot) :=
    Env.checks_ident hfind htype
  unfold Snippet.shifted
  split
  · subst n
    refine ⟨_, hvar.indexes rfl, fun {vars k} hk hvalue => ?_⟩
    have hlong : Literal.Sized .long k := Literal.sized_long_iff.mpr (by omega)
    rw [reach_eq (by omega), Nat.zero_add, hvalue, pure_bind, (Literal.sized_uint hk).convert hlong]
  · refine ⟨_, hvar.indexes_sum rfl (by omega), fun {vars k} hk hvalue => ?_⟩
    rw [hvalue, pure_bind, Index.after_uint hk hn]

/-- The index of the first element of a range. -/
theorem Env.indexes_zero_shifted (hn : n < 2 ^ 63) :
    ∃ g, env.Indexes ((Snippet.digits 0).shifted n).tree g ∧
      ∀ vars, g vars = pure (Scalar.long.holding (reach n 0)) := by
  have hzero : env.Checks (Snippet.digits 0).tree (.scalar .int) fun _ => pure (Scalar.int.holding 0) :=
    Env.checks_digits (by decide)
  rw [reach_zero]
  unfold Snippet.shifted
  split
  · subst n
    refine ⟨_, hzero.indexes rfl, fun vars => ?_⟩
    have hint : Literal.Sized .int 0 := Literal.sized_int_iff.mpr (by decide)
    have hlong : Literal.Sized .long 0 := Literal.sized_long_iff.mpr (by decide)
    rw [pure_bind, hint.convert hlong]
    rfl
  · refine ⟨_, hzero.indexes_sum rfl (by omega), fun vars => ?_⟩
    rw [pure_bind, Index.after_zero hn]

end

/-! ### Elements -/

/-- The integer that is element `k` of a memory. -/
def Store.integer (st : Store) (s : Scalar) (m k : Nat) : Int :=
  s.spelled ((st.getD m #[]).element s.size k)

/-- Element `k` lies within a memory. -/
def Store.Within (st : Store) (size m k : Nat) : Prop :=
  (st.getD m #[]).size < 2 ^ 63 ∧ (k + 1) * size ≤ (st.getD m #[]).size

theorem Store.load_integer {st : Store} {s : Scalar} {m k : Nat} (hs : s.isInteger = true)
    (h : st.Within s.size m k) :
    Exec.load m (BitVec.ofNat 64 (k * s.size)) (.scalar s) st = (.ok (s.holding (st.integer s m k)), st) := by
  have hsize : (Ty.scalar s).size = s.size := by rw [Ty.size]
  have hlen := Bytes.length_element h.2
  have hload := @Store.load_element st m k (.scalar s) _ h.1 (by rw [hsize]; exact h.2)
    (by rw [hsize]; exact Scalar.decode_integer hs hlen)
  rw [hsize] at hload
  rw [Exec.load, hload]
  rfl

theorem Env.supplies_element {env : Env} {x : String} {v : Variable} {s : Scalar} {space : Space}
    {readOnly : Bool} {i : Snippet} {g : Vars → Exec Value} {pre : Point → Prop}
    {post : Point → Value → Prop} (hfind : env.find? x = some v)
    (htype : v.type = .pointer (.scalar s) space readOnly) (hs : s.isInteger = true)
    (hi : env.Indexes i.tree g)
    (hvalue : ∀ p, pre p → ∃ m k, p.vars.at v.slot = .pointer ⟨some m, 0⟩ ∧
      g p.vars = pure (Scalar.long.holding (k : Nat)) ∧ p.store.Within s.size m k ∧
      post p (s.holding (p.store.integer s m k))) :
    env.Supplies (Snippet.element x i).tree (.scalar s) pre post := by
  rintro _ ⟨o, bracket, y, rfl, hy⟩
  obtain ⟨z, place, hz, hztype, hterm, -, -, hlocate⟩ :=
    Env.check_element (t := .scalar s) hfind htype hi hy o bracket
  refine ⟨z, hz, fun o => ⟨z, ?_, fun call p hp => ?_⟩⟩
  · unfold Checked.convert
    rw [if_pos (by rw [hztype])]
  · obtain ⟨m, k, hpointer, hindex, hwithin, hpost⟩ := hvalue p hp
    refine ⟨_, ?_, hpost⟩
    have hplace : place.locate call p.frame = pure (.mem m (BitVec.ofNat 64 (k * s.size)) (.scalar s)) := by
      have hsize : (Ty.scalar s).size = s.size := by rw [Ty.size]
      have hindex' : g p.frame.vars = pure (Scalar.long.holding k) := hindex
      have hpointer' : p.frame.vars.at v.slot = .pointer ⟨some m, 0⟩ := hpointer
      rw [hlocate, hindex', hpointer', pure_bind, Value.elementAt_holding, pure_bind, hsize]
    rw [hterm, Term.eval, hplace, pure_bind]
    exact Store.load_integer hs hwithin

/-! ### The number of elements -/

theorem Value.decode_count {count : Nat} (hcount : count < 2 ^ 32) :
    Value.decode (.scalar .uint) (Bytes.ofNat 4 count) = .ok (Scalar.uint.holding count) := by
  have hspelled : Scalar.uint.spelled (Bytes.ofNat 4 count) = count := by
    have hwidth : Nat.pow 256 4 = 2 ^ 32 := by decide
    rw [Scalar.spelled, Bytes.toNat_ofNat, Literal.residue, if_neg (by decide)]
    simp only [Scalar.size, hwidth]
    omega
  rw [Scalar.decode_integer rfl (by simp [Scalar.size]), hspelled]

theorem Program.readArg_count (kernel : String) (index : Nat) (param : String) {count : Nat}
    (hcount : count < 2 ^ 32) :
    Program.readArg kernel index param (.scalar .uint) { bytes := Bytes.ofNat 4 count } =
      .ok (Scalar.uint.holding count) := by
  have hsize : (Ty.scalar .uint).size = 4 := by rw [Ty.size]; rfl
  have hlen : ¬ (Bytes.ofNat 4 count).length ≠ (Ty.scalar .uint).size := by simp [hsize]
  rw [Program.readArg]
  · simp only [if_neg hlen, Value.decode_count hcount]
  · simp

theorem Cursor.count_element {b b' : TypedBuffer} {n count : Nat} (hlast : b'.buffer = b.buffer)
    (hcount : count < 2 ^ 63) :
    (Cursor.element b n).count (.element b' (n + count : Nat)) = .ok (count : Int) := by
  have hsub : ((n + count : Nat) : Int) - n = count := by omega
  have hwrap : wrap64 count = count := wrap64_of_lt (by omega) (by omega)
  have hneg : ¬ (count : Int) < 0 := by omega
  simp only [Cursor.count, Cursor.distance, if_pos hlast.symm, hsub, hwrap, if_neg hneg]

/-! ### The index that a search stores -/

theorem Value.encode_index {k : Nat} (hk : k < 2 ^ 32) {block : Bytes} (h : block.size = 4) :
    Value.encodeAt (.scalar .uint) (Scalar.uint.holding k) block 0 =
      ((Bytes.ofNat 4 k).toArray, .ok ()) := by
  have hbits : (BitVec.ofInt 32 k).toNat = k := by
    rw [BitVec.toNat_ofInt]
    omega
  have hsize : (Ty.scalar .uint).size = 4 := by rw [Ty.size]; rfl
  have hbytes : Value.bytesOfLanes (.scalar .uint) (.atom (Scalar.uint.register.ofInt k)) =
      Bytes.ofNat 4 k := by
    show Bytes.ofNat 4 (BitVec.ofInt 32 k).toNat ++ [] = _
    rw [hbits, List.append_nil]
  show (Bytes.write block 0 ((Value.bytesOfLanes (.scalar .uint) _).take _), Outcome.ok ()) = _
  rw [hbytes, hsize, List.take_of_length_le (by simp), Bytes.write_all (by simp [h])]

theorem Store.store_index {st : Store} {out : Nat} (h : (st.getD out #[]).size = 4) {k : Nat}
    (hk : k < 2 ^ 32) :
    Exec.store out 0 (.scalar .uint) (Scalar.uint.holding k) st =
      (.ok (), st.setIfInBounds out (Bytes.ofNat 4 k).toArray) := by
  have haccess : Store.access (st.getD out #[]).size 0 (Ty.scalar .uint).size = .inside 0 := by
    rw [h]
    rfl
  simp only [Exec.store, Store.store, haccess, Value.encode_index hk h,
    Array.setIfInBounds_setIfInBounds]

/-! ### Ranges of a machine -/

namespace Machine.HoldsRange

variable {ctx n count : Nat} {b : TypedBuffer} {m : Machine} {s : Scalar}

theorem place_lt (h : HoldsRange ctx b n count m) (helem : b.elem = .scalar s) : n < 2 ^ 63 := by
  have hsize : 0 < (Ty.scalar s).size := by
    rw [Ty.size]
    cases s <;> decide
  have hwithin := h.within
  have hsmall := h.small
  rw [helem] at hwithin
  have := Nat.le_mul_of_pos_right (n + count) hsize
  omega

/-- Wherever an index wraps to, it stays within the memory. -/
theorem within_reach (h : HoldsRange ctx b n count m) (helem : b.elem = .scalar s) {j : Nat}
    (hj : j < count) : m.memories.Within s.size b.buffer (reach n j) := by
  have hsize : (Ty.scalar s).size = s.size := by rw [Ty.size]
  have hwithin := h.within
  rw [helem, hsize] at hwithin
  have hle := reach_le n j
  refine ⟨h.small, Nat.le_trans (Nat.mul_le_mul_right _ ?_) hwithin⟩
  omega

end Machine.HoldsRange

/-! ### Statements one after another -/

namespace Sequence

/-! ### The number of a work item -/

section Check

variable {env : Env}

/-- The number of the work item, as an unsigned integer. -/
theorem supplies_globalId (hfree : env.find? "get_global_id" = none) {post : Point → Value → Prop}
    {pre : Point → Prop} (hpre : ∀ p, pre p → p.item.offset = 0 ∧ p.item.id < 2 ^ 32 ∧
      post p (Scalar.uint.holding p.item.id)) :
    env.Supplies (Snippet.call "get_global_id" [.digits 0]).tree (.scalar .uint) pre post := by
  rintro _ ⟨o, paren, _, rfl, e, _, rfl, ⟨o', rfl⟩, rfl⟩
  let dim : Term := .cast .uint (Checked.ofConstant (.ofInt 0)).term
  let id : Checked := { type := .scalar .ulong, term := .workItem .globalId dim }
  have hzero : env.checkExpr (.number o' .int (toString 0)) = .ok (.ofConstant (.ofInt 0)) := by
    have h := Index.check_natural (n := 0) (by decide) env o'
    rwa [Index.natural_int (by decide)] at h
  have hargs : env.checkExprs [.number o' .int (toString 0)] = .ok [.ofConstant (.ofInt 0)] := by
    rw [Env.checkExprs, hzero, Env.checkExprs]
    rfl
  have hname : Callee.ofName env (Callee.fullName "get_global_id") = .workItem .globalId := by
    have hfull : Callee.fullName "get_global_id" = "get_global_id" := by decide
    rw [hfull]
    rfl
  refine ⟨id, ?_, fun o => ⟨{ type := .scalar .uint, term := .cast .uint id.term }, rfl, ?_⟩⟩
  · rw [Env.checkExpr]
    simp only [hfree, Option.isSome_none, Bool.false_eq_true, if_false, hname, hargs]
    rfl
  · intro call p hp
    obtain ⟨hoffset, hid, hpost⟩ := hpre p hp
    refine ⟨_, ?_, hpost⟩
    have hulong : Literal.Sized .ulong p.item.id :=
      ⟨rfl, nofun, fun _ => ⟨by omega, by simp only [Scalar.size]; omega⟩⟩
    have hconvert := hulong.convert (Literal.sized_uint hid)
    have hcast : (Scalar.ulong.holding p.item.id).cast .uint = pure (Scalar.uint.holding p.item.id) := by
      rw [← hconvert]
      rfl
    have hterm : id.term.eval call p.frame = pure (Scalar.ulong.holding p.item.id) := by
      have hask : p.item.ask .globalId 0 = BitVec.ofInt 64 p.item.id := by
        simp [WorkItem.ask, WorkItem.globalId, hoffset]
      rw [Term.eval, Term.eval, Checked.ofConstant, Term.eval]
      show (pure (Value.lanes .uint64 (.atom (p.item.ask .globalId 0))) : Exec Value) = _
      rw [hask]
      rfl
    rw [Term.eval, hterm, pure_bind, hcast]
    rfl

end Check

end Sequence

/-! ### Items in any order -/

namespace Program

variable {p : Program} {rounds : Nat} {fn : CheckedFn} {args : List Value} {offset extent : Int}

/-- Runs some items of a range one after another, in the order of a list; the first failure ends it. -/
def runOrder (p : Program) (rounds : Nat) (fn : CheckedFn) (args : List Value) (offset extent : Int) :
    List Nat → Store → Outcome RunError Unit × Store
  | [], st => (.ok (), st)
  | id :: ids, st =>
    let item : WorkItem := { offset, extent, id }
    match p.runItem rounds fn args item st with
    | (.ok (), st) => runOrder p rounds fn args offset extent ids st
    | (.failed e, st) => (.failed (.item fn.name item.globalId.toInt e), st)
    | (.crashed c, st) => (.crashed c, st)
    | (.exhausted, st) => (.exhausted, st)

/-- The device runs the items in the order of their numbers. -/
theorem runItems_eq_runOrder : ∀ (count id : Nat) (st : Store),
    p.runItems rounds fn args offset extent count id st =
      p.runOrder rounds fn args offset extent (List.range' id count) st
  | 0, _, _ => rfl
  | count + 1, id, st => by
    rw [runItems, List.range'_succ, runOrder]
    rcases p.runItem rounds fn args { offset, extent, id } st with ⟨outcome, st'⟩
    cases outcome with
    | ok _ => exact runItems_eq_runOrder count (id + 1) st'
    | _ => rfl

end Program

end KernelForge
