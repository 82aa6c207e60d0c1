/-
Single precision literals from the host to the device.

The host writes the shortest decimal of a number, with a point and an `f`; the device reads the decimal
to double precision and narrows it.  All finite numbers come back as they were, but for one and its
negation: its shortest decimal is so close to the midpoint above it that double precision cannot tell
them apart, and from there the number goes to its even neighbour.
-/
import KernelForge.Proofs.Decimal.General
import KernelForge.Proofs.Decimal.Single
import KernelForge.Proofs.Host.Literals
import Mathlib

namespace KernelForge

namespace Literal

open Binary Decimal Token

/-! ### Writing -/

/-- The decimal of a finite magnitude of single precision is within reach of any reader. -/
theorem shortest_bounds {b : Nat} (hb : b < single.infinity) :
    (0 < (shortest single b).digits → (10 : ℚ) ^ (-46 : Int) ≤ (shortest single b).value) ∧
      (shortest single b).value < (10 : ℚ) ^ (46 : Int) := by
  rcases Nat.eq_zero_or_pos b with rfl | hpos
  · simp [shortest, Scaled.value]
  obtain ⟨hlow, hup, -⟩ := shortest_between Format.single_hidden_even (by decide) hpos
  have hleast : single.midpoint 0 = 2 ^ (-150 : Int) := by
    have h := Format.midpoint_units (b := 0) (k := 0) (m := 0) rfl (.inl rfl) (by decide)
    have hE : single.minExponent = -149 := by decide
    simpa [hE] using h
  have hlargest : single.valueOf (254 * single.hidden + single.hidden) = 2 ^ (128 : Int) := by
    have hE : single.minExponent = -149 := by decide
    have hH : (single.hidden : ℚ) = 2 ^ (23 : Int) := Format.hidden_value single
    rw [Format.valueOf_units single (.inr le_rfl) (by omega), hE, hH, ← zpow_add₀ two_ne_zero]
    norm_num
  have hinf : single.infinity = 254 * single.hidden + single.hidden := by decide
  constructor
  · intro _
    calc (10 : ℚ) ^ (-46 : Int) ≤ 2 ^ (-150 : Int) := by norm_num
      _ = single.midpoint 0 := hleast.symm
      _ ≤ single.midpoint (b - 1) := single.midpoint_mono (Nat.zero_le _)
      _ ≤ (shortest single b).value := hlow
  · calc (shortest single b).value ≤ single.midpoint b := hup
      _ < single.valueOf (b + 1) := single.midpoint_lt b
      _ ≤ single.valueOf (254 * single.hidden + single.hidden) :=
          single.valueOf_strictMono.monotone (hinf ▸ hb)
      _ = 2 ^ (128 : Int) := hlargest
      _ < 10 ^ (46 : Int) := by norm_num

/-- A finite number of single precision is finite in double precision. -/
theorem widen_finite {x : Binary32} (hx : x.isFinite = true) :
    x.widen.isNaN = false ∧ x.widen.isFinite = true ∧ x.widen.narrow = x := by
  have hfin : x.magnitude < single.infinity := of_decide_eq_true hx
  have hwide : single.convert double x.magnitude < double.infinity := by
    rcases Nat.eq_zero_or_pos x.magnitude with h | h
    · rw [h]
      decide
    · exact (Format.convert_double h hfin).2.1
  obtain ⟨-, hmag⟩ := Binary64.ofParts_parts x.isNegative hwide.le
  have hmag' : x.widen.magnitude = single.convert double x.magnitude := hmag
  refine ⟨?_, ?_, Binary64.narrow_widen (decide_eq_false (not_lt.mpr hfin.le))⟩
  · rw [Binary64.isNaN, hmag', decide_eq_false_iff_not, not_lt]
    exact hwide.le
  · rw [Binary64.isFinite, hmag', decide_eq_true_eq]
    exact hwide

theorem pointed_negative (text : String) : pointed ("-" ++ text) = "-" ++ pointed text := by
  have hany : (("-" ++ text).any fun c => decide (c = '.') || decide (c = 'e')) =
      text.any fun c => decide (c = '.') || decide (c = 'e') := by
    refine String.contains_bool_eq.trans (Eq.trans ?_ String.contains_bool_eq.symm)
    simp
  rw [pointed, pointed, hany]
  split
  · rfl
  · rw [String.append_assoc]

theorem real_single {x : Binary32} (hx : x.isFinite = true) :
    real .float x.widen = parenthesize (pointed ((if x.isNegative = true then "-" else "") ++
      (shortest single x.magnitude).general) ++ "f") := by
  obtain ⟨hnan, hfin, hnarrow⟩ := widen_finite hx
  have hmag : x.magnitude < single.infinity := of_decide_eq_true hx
  have hgeneral : x.text = (if x.isNegative = true then "-" else "") ++
      (shortest single x.magnitude).general := by
    show generalText single x.isNegative x.magnitude = _
    rw [generalText, if_neg (not_lt.mpr hmag.le), if_neg hmag.ne]
  rw [← hgeneral]
  simp [real, hnan, hfin, hnarrow, pointed, suffix]

/-- **The literal of a finite number is a real number with an `f`**, in parentheses when it is
negative. -/
theorem exists_real_single {x : Binary32} (hx : x.isFinite = true) :
    ∃ p : Figures, p.IsReal ∧ (∀ e ∈ p.exponent?, Nat.ofDigitChars 10 e.2 0 < 10000) ∧
      p.digits * 10 ^ p.scale = (shortest single x.magnitude).value ∧
      real .float x.widen =
        if x.isNegative = true then "(-" ++ String.ofList (p.chars ++ ['f']) ++ ")"
        else String.ofList (p.chars ++ ['f']) := by
  obtain ⟨hlow, hup⟩ := shortest_bounds (of_decide_eq_true hx)
  obtain ⟨p, hp, hchars, hvalue, hsmall⟩ := spells_general (by decide) hlow hup
  refine ⟨p, hp, hsmall, hvalue, ?_⟩
  have htext : pointed (shortest single x.magnitude).general ++ "f" = String.ofList (p.chars ++ ['f']) := by
    rw [← hchars, String.ofList_append, String.ofList_toList]
  rw [real_single hx]
  cases x.isNegative with
  | true => simp only [if_true, pointed_negative, String.append_assoc, htext, parenthesize_negative]
  | false =>
    obtain ⟨c, cs, hc, hcs⟩ := Numeral.exists_chars hp
    simp only [Bool.false_eq_true, if_false, String.empty_append, htext]
    exact parenthesize_digit hc (String.toList_ofList.trans (by rw [hcs, List.cons_append]))

/-! ### Reading -/

/-- A text is an expression of type `float` whose value is a number. -/
def CompilesSingle (env : Env) (text : String) (x : Binary32) : Prop :=
  ∃ e c, Code.Expr.parse Program.fileName (SourceText.ofChars text.toList) = .ok e ∧
    env.checkExpr e = .ok c ∧ c.type = .scalar .float ∧
      ∀ call f, c.term.eval call f = Exec.pure (.lanes .float32 (.atom x))

theorem CompilesSingle.unique {env : Env} {text : String} {x y : Binary32} (hx : CompilesSingle env text x)
    (hy : CompilesSingle env text y) : x = y := by
  obtain ⟨e, c, hparse, hcheck, -, hvalue⟩ := hx
  obtain ⟨e', c', hparse', hcheck', -, hvalue'⟩ := hy
  cases hparse.symm.trans hparse'
  cases hcheck.symm.trans hcheck'
  have heval := (hvalue default default).symm.trans (hvalue' default default)
  have hout := congrFun heval default
  simpa [Exec.pure] using hout

variable {env : Env} {p : Figures}

theorem parse_real (hp : p.IsReal) (negative : Prop) [Decidable negative] :
    ∃ e, Code.Expr.parse Program.fileName (SourceText.ofChars
        (if negative then "(-" ++ String.ofList (p.chars ++ ['f']) ++ ")"
          else String.ofList (p.chars ++ ['f'])).toList) = .ok e ∧
      if negative then ∃ o₁ o₂ o₃, e = .paren o₁
        (.unary o₂ .sub (.number o₃ .float (String.ofList (p.chars ++ ['f']))))
      else ∃ o, e = .number o .float (String.ofList (p.chars ++ ['f'])) := by
  set text := String.ofList (p.chars ++ ['f']) with htext
  have hstart : ∀ cs, (text.toList ++ cs).head?.any startsOperand = true := by
    intro cs
    obtain ⟨c, ds, hc, hds⟩ := Numeral.exists_chars hp
    rw [htext, String.toList_ofList, hds]
    simp [startsOperand, hc]
  have hscans : Scans (if negative then "(-" ++ text ++ ")" else text).toList
      (if negative then [.op .lparen, .op .sub, .float text, .op .rparen] else [.float text]) := by
    have h := scans_signed negative hstart (t := .float text)
      (fun {rest us} hend h => by
        have h := h.real hp (.inr rfl) hend
        rwa [htext, String.toList_ofList]) Ends.nil Scans.nil
    rwa [List.append_nil, List.append_nil] at h
  obtain ⟨htokens, hpragmas, hnone⟩ := TokenStream.ofText_of_scans hscans Program.fileName
  have htree := @reads_signed { finish := (TokenStream.ofText Program.fileName
      (SourceText.ofChars (if negative then "(-" ++ text ++ ")" else text).toList)).finish } [] negative _
    (.float text) .float text
    (fun us hbrack hperiod => Code.Scope.reads_plain rfl (by simp) Code.Scope.reads_real hbrack hperiod)
    (by simp) (by simp)
  rw [List.append_nil] at htree
  obtain ⟨e, he, htree⟩ := Code.Scope.onlyExpr_of_unary htree htokens
  refine ⟨e, ?_, htree⟩
  simp [Code.Expr.parse, Code.Expr.ofStream, hpragmas, hnone, he]

/-- The negation of a number. -/
theorem exists_negated (y : Binary32) (o : Nat) :
    ∃ c, (Checked.ofConstant (.ofFloat y)).unary o .sub = .ok c ∧ c.type = .scalar .float ∧
      ∀ call f, c.term.eval call f = Exec.pure (.lanes .float32 (.atom y.neg)) := by
  refine ⟨_, rfl, rfl, fun call f => ?_⟩
  rw [Term.eval, Checked.ofConstant, Term.eval]
  rfl

theorem exists_compiles {x : Binary32} (hx : x.isFinite = true) (env : Env) :
    ∃ num den : Nat, 0 < den ∧ (num / den : ℚ) = (shortest single x.magnitude).value ∧
      CompilesSingle env (real .float x.widen)
        (.ofParts x.isNegative (double.convert single (double.round num den))) := by
  obtain ⟨p, hp, hsmall, hvalue, htext⟩ := exists_real_single hx
  obtain ⟨num, den, hden, hratio, hread⟩ := Numeral.ofText_figures hp hsmall env.fp64
  refine ⟨num, den, hden, hratio.trans hvalue, ?_⟩
  set y := (Binary64.ofParts false (Binary64.format.round num den)).narrow with hy
  have hnarrow : y = .ofParts false (double.convert single (double.round num den)) := by
    obtain ⟨hneg, hmag⟩ := Binary64.ofParts_parts false (Format.round_le Binary64.format num den)
    rw [hy, Binary64.narrow, hneg, hmag]
    rfl
  obtain ⟨e, hparse, htree⟩ := parse_real hp (x.isNegative = true)
  rw [htext]
  refine ⟨e, ?_⟩
  have hnumber : ∀ o, env.checkExpr (.number o .float (String.ofList (p.chars ++ ['f']))) =
      .ok (.ofConstant (.ofFloat y)) := by
    intro o
    rw [Env.checkExpr, hread]
  cases hneg : x.isNegative with
  | true =>
    rw [hneg] at hparse htree
    obtain ⟨o₁, o₂, o₃, rfl⟩ := htree
    obtain ⟨c, hc, htype, heval⟩ := exists_negated y o₂
    have hflip : y.neg = .ofParts true (double.convert single (double.round num den)) := by
      rw [hnarrow]
      exact Binary32.neg_ofParts false (Format.convert_le single (Format.round_le double num den))
    refine ⟨c, hparse, ?_, htype, fun call f => ?_⟩
    · rw [Env.checkExpr, Env.checkExpr, hnumber]
      exact hc
    · rw [heval, hflip]
  | false =>
    rw [hneg] at hparse htree
    obtain ⟨o, rfl⟩ := htree
    refine ⟨_, hparse, hnumber o, rfl, fun call f => ?_⟩
    rw [Checked.ofConstant, Term.eval, hnarrow]
    rfl

theorem shortest_exceptional : shortest single exceptional = ⟨7038531, -32⟩ := by decide +kernel

/-- **The literal of a finite number compiles to this number, but for one magnitude**: there it
compiles to the next number away from zero. -/
theorem single_literal_iff {x : Binary32} (hx : x.isFinite = true) (env : Env) :
    ∃ text, ofHost (some .float32) (.float32 x) = .ok (.scalar .float, text) ∧
      (CompilesSingle env text x ↔ x.magnitude ≠ exceptional) ∧
      (x.magnitude = exceptional →
        CompilesSingle env text (.ofParts x.isNegative (exceptional + 1))) := by
  obtain ⟨num, den, hden, hvalue, hcompiles⟩ := exists_compiles hx env
  refine ⟨real .float x.widen, rfl, ?_⟩
  by_cases hmag : x.magnitude = exceptional
  · have hnext : double.convert single (double.round num den) = exceptional + 1 := by
      have hratio : (num / den : ℚ) = ((7038531 : Nat) / (10 ^ 32 : Nat) : ℚ) := by
        rw [hvalue, hmag, shortest_exceptional, Scaled.value]
        norm_num
      rw [Format.round_congr (by decide) hden (by decide) hratio]
      decide +kernel
    rw [hnext] at hcompiles
    refine ⟨⟨fun hself => ?_, fun hne => absurd hmag hne⟩, fun _ => hcompiles⟩
    have hsame := congrArg Binary32.magnitude (hself.unique hcompiles)
    rw [hmag, (Binary32.ofParts_parts x.isNegative (by decide)).2] at hsame
    omega
  · have hback : double.convert single (double.round num den) = x.magnitude :=
      convert_round_shortest hden (of_decide_eq_true hx) hmag hvalue
    rw [hback, Binary32.ofParts_self] at hcompiles
    exact ⟨⟨fun _ => hmag, fun _ => hcompiles⟩, fun h => absurd h hmag⟩

/-- The literal of a number, whatever number it is. -/
theorem ofHost_single (x : Binary32) :
    ofHost (some .float32) (.float32 x) = .ok (.scalar .float, real .float x.widen) := rfl

/-- The number that does not come back. -/
theorem exceptional_single_literal :
    ofHost (some .float32) (.float32 ⟨0x15ae43fd⟩) = .ok (.scalar .float, "7.038531e-26f") ∧
      ¬ CompilesSingle {} "7.038531e-26f" ⟨0x15ae43fd⟩ ∧
      CompilesSingle {} "7.038531e-26f" ⟨0x15ae43fe⟩ := by
  obtain ⟨text, hliteral, hself, hnext⟩ :=
    @single_literal_iff ⟨0x15ae43fd⟩ (by decide) {}
  have htext : ofHost (some .float32) (.float32 ⟨0x15ae43fd⟩) = .ok (.scalar .float, "7.038531e-26f") := by
    have hparts : Binary32.isNegative ⟨0x15ae43fd⟩ = false ∧
        Binary32.magnitude ⟨0x15ae43fd⟩ = exceptional := by decide
    have hgeneral : (shortest single exceptional).general = "7.038531e-26" := by
      rw [shortest_exceptional]
      decide +kernel
    have hpointed : pointed ((if false = true then "-" else "") ++ "7.038531e-26") ++ "f" =
        "7.038531e-26f" := by cbv
    rw [ofHost_single, real_single (by decide), hparts.1, hparts.2, hgeneral, hpointed,
      parenthesize_digit (c := '7') (by decide) rfl]
  cases hliteral.symm.trans htext
  exact ⟨htext, fun h => hself.1 h (by decide), hnext (by decide)⟩

end Literal

end KernelForge
