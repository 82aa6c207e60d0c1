/-
The search for an extremum.

One work item looks at the elements of a range in their order and keeps the first one that none of
them beats.  What it keeps is the invariant of its loop, and from the text of the kernel on it is
followed to the position that the algorithm gives.

The kernel adds the place where the range starts to an unsigned index of 32 bits.  In a buffer with
more than 2^32 elements the sum may wrap, and then another element is read; so what is found is the
extremum of the elements that are reached.  These are the elements of the range unless the sum wraps,
and if it does, the last element is never reached and may be the one that was asked for.
-/
import KernelForge.Proofs.Device.Running
import KernelForge.Proofs.Program.Crews
import KernelForge.Proofs.Sequence.Ranges

namespace KernelForge.Sequence

open Code.Scope (isQualifier)

/-! ### Extrema -/

namespace Sign

/-- The first integer is the better one of two different ones. -/
def Beats : Sign → Int → Int → Prop
  | less, i, j => i < j
  | greater, i, j => j < i

instance : (sign : Sign) → (i j : Int) → Decidable (sign.Beats i j)
  | less, i, j => inferInstanceAs (Decidable (i < j))
  | greater, i, j => inferInstanceAs (Decidable (j < i))

/-- The operator of a comparison. -/
def operator : Sign → Operator
  | less => .lss
  | greater => .gtr

theorem relates_operator (sign : Sign) (i j : Int) :
    sign.operator.relates i j = decide (sign.Beats i j) := by
  cases sign <;> rfl

theorem text_eq (sign : Sign) : sign.text = sign.operator.spelling := by
  cases sign <;> rfl

variable {sign : Sign} {i j k : Int}

theorem not_beats_self (sign : Sign) (i : Int) : ¬ sign.Beats i i := by
  cases sign <;> exact Int.lt_irrefl i

theorem Beats.of_not (h : sign.Beats i k) (hj : ¬ sign.Beats j k) :
    sign.Beats i j ∧ ¬ sign.Beats j i := by
  cases sign <;> simp only [Beats] at * <;> omega

end Sign

/-- Below `n` the values of `f` are best at `k` first: none beats it, and it beats those before. -/
structure FirstBest (sign : Sign) (f : Nat → Int) (n k : Nat) : Prop where
  lt : k < n
  best : ∀ j < n, ¬ sign.Beats (f j) (f k)
  first : ∀ j < k, sign.Beats (f k) (f j)

namespace FirstBest

variable {sign : Sign} {f g : Nat → Int} {n k k' : Nat}

theorem one (sign : Sign) (f : Nat → Int) : FirstBest sign f 1 0 := by
  refine ⟨Nat.one_pos, fun j hj => ?_, nofun⟩
  obtain rfl : j = 0 := by omega
  exact sign.not_beats_self _

theorem better (h : FirstBest sign f n k) (hn : sign.Beats (f n) (f k)) :
    FirstBest sign f (n + 1) n := by
  refine ⟨Nat.lt_succ_self n, fun j hj => ?_, fun j hj => (hn.of_not (h.best j hj)).1⟩
  rcases Nat.lt_succ_iff_lt_or_eq.mp hj with hj | rfl
  · exact (hn.of_not (h.best j hj)).2
  · exact sign.not_beats_self _

theorem stays (h : FirstBest sign f n k) (hn : ¬ sign.Beats (f n) (f k)) :
    FirstBest sign f (n + 1) k := by
  refine ⟨Nat.lt_succ_of_lt h.lt, fun j hj => ?_, h.first⟩
  rcases Nat.lt_succ_iff_lt_or_eq.mp hj with hj | rfl
  · exact h.best j hj
  · exact hn

theorem congr (h : FirstBest sign f n k) (hfg : ∀ j < n, f j = g j) : FirstBest sign g n k := by
  have hk := hfg k h.lt
  refine ⟨h.lt, fun j hj => ?_, fun j hj => ?_⟩
  · rw [← hfg j hj, ← hk]
    exact h.best j hj
  · rw [← hfg j (Nat.lt_trans hj h.lt), ← hk]
    exact h.first j hj

theorem unique (h : FirstBest sign f n k) (h' : FirstBest sign f n k') : k = k' := by
  rcases Nat.lt_trichotomy k k' with hlt | heq | hlt
  · exact absurd (h'.first k hlt) (h.best k' h'.lt)
  · exact heq
  · exact absurd (h.first k' hlt) (h'.best k h.lt)

end FirstBest

namespace Extremum

/-! ### The kernel -/

/-- What is done with each element of a range from place `n` on. -/
def round (s : Scalar) (sign : Sign) (n : Nat) : Listing :=
  .declare false (.scalar s) "candidate" (.element "_buf1" ((Snippet.name "i").shifted n)) <|
  .branch (.binary sign.operator (.name "candidate") (.name "value"))
    (.assign (.name "value") (.name "candidate") <|
     .assign (.name "value_index") (.name "i") .done) .done

/-- The statements of the kernel. -/
def listing (s : Scalar) (sign : Sign) (n : Nat) : Listing :=
  .declare false (.scalar s) "value" (.element "_buf1" ((Snippet.digits 0).shifted n)) <|
  .declare false (.scalar .uint) "value_index" (.digits 0) <|
  .count "i" "size" (round s sign n) <|
  .assign (.unary .mul .mul (.name "_buf0")) (.name "value_index") .done

/-- The arguments of the kernel. -/
def args (s : Scalar) (out : Nat) (count : Int) (b : Nat) : List DraftArg :=
  [{ name := "_buf0", type := .pointer (.scalar .uint) .global false, buffer? := some out },
   { name := "size", type := .scalar .uint
     value? := some (Bytes.ofNat 4 (count % 0x100000000).toNat).toArray },
   { name := "_buf1", type := .pointer (.scalar s) .global true, buffer? := some b }]

/-- What they are bound to. -/
def bound (out count b : Nat) : List KernelArg :=
  [{ memory? := some out }, { bytes := Bytes.ofNat 4 count }, { memory? := some b }]

/-- The values that they have in a run. -/
def values (out count b : Nat) : List Value :=
  [.pointer ⟨some out, 0⟩, Scalar.uint.holding count, .pointer ⟨some b, 0⟩]

/-- The names that the kernel takes. -/
def names : Names where
  taken := ["_buf1", "candidate", "i", "value_index", "value", "size", "_buf0", "serial_find_extrema"]
  next := [("_buf", 2)]

/-- The draft of the kernel. -/
def draft (s : Scalar) (sign : Sign) (n out b : Nat) (count : Int) : Draft where
  name := "serial_find_extrema"
  pre := { names }
  part := { args := args s out count b, body := (listing s sign n).text 1 }

section Draft

variable {s : Scalar} {sign : Sign} {n out : Nat}

theorem inject_integer (hs : s.isInteger = true) (p : Preamble) : p.inject (.scalar s) = p := by
  rw [Preamble.inject, if_neg]
  rintro rfl
  cases hs

/-- The text of the draft is that of the listing. -/
theorem extremum_eq (hs : s.isInteger = true) {b : TypedBuffer} (hne : out ≠ b.buffer)
    (hb : b.elem = .scalar s) (count : Int) :
    extremum out count (.element b n) s sign = draft s sign n out b.buffer count := by
  -- The names that are handed out do not depend on anything.
  have hfirst : ({} : Names).register "serial_find_extrema" = (true, ⟨["serial_find_extrema"], []⟩) := by
    decide
  have hbuf₀ : (⟨["serial_find_extrema"], []⟩ : Names).indexed "_buf" =
      ("_buf0", ⟨["_buf0", "serial_find_extrema"], [("_buf", 1)]⟩) := by decide
  have hbuf₁ : (⟨["candidate", "i", "value_index", "value", "size", "_buf0", "serial_find_extrema"],
      [("_buf", 1)]⟩ : Names).indexed "_buf" = ("_buf1", names) := by decide
  have hfresh : ∀ (x : String) (ts : List String) ns, ts.contains x = false →
      (⟨ts, ns⟩ : Names).fresh x = (x, ⟨x :: ts, ns⟩) := by
    intro x ts ns h
    simp only [Names.fresh, Names.isTaken, h, Bool.false_eq_true, if_false]
  have htaken : ∀ (x : String) (ts : List String) ns, ts.contains x = true →
      (⟨ts, ns⟩ : Names).register x = (false, ⟨ts, ns⟩) := by
    intro x ts ns h
    simp only [Names.register, Names.isTaken, h, if_true]
  have huint : ∀ p : Preamble, p.inject (.scalar .uint) = p := inject_integer rfl
  have helem : ∀ p : Preamble, p.inject (.scalar s) = p := inject_integer hs
  simp (disch := decide) [-String.reduceAppend, -Int.toString_eq_repr, extremum, Cursor.bind, Draft.register,
    addCount, openBlock, closeBlock, Draft.line, Draft.indent, Draft.dedent, Draft.append, Draft.decl,
    Draft.pushArg, Draft.inject, Draft.reserve, Draft.fresh, Draft.indexed, Draft.withNames, Draft.ofName,
    hne, List.findIdx?_cons, hfirst, hbuf₀, hbuf₁, hfresh, htaken, huint, helem, hb]
  refine congrArg (fun body => ({ draft s sign n out b.buffer count with
    part := { args := args s out count b.buffer, body } } : Draft)) (String.toList_injective ?_)
  -- Both texts are made of the same pieces.
  have hzero : " = 0;" = " = " ++ ("0" ++ ";") := rfl
  have hloop : "++) \x7b" = "++)" ++ " \x7b" := rfl
  have htest : ") \x7b" = ")" ++ " \x7b" := rfl
  have hempty : "".toList = [] := rfl
  have hplace : toString (n : Int) = toString n := rfl
  have hname : ∀ a : DraftArg, ([a][0]?.getD default).name = a.name := fun _ => rfl
  simp only [listing, round, Listing.text, Snippet.element, Snippet.binary, Snippet.unary,
    Snippet.text_shifted, Script.lineText, Snippet.name, Snippet.digits, Listing.qualifierText, Sign.text_eq,
    hzero, hloop, htest, hplace, hname, Bool.false_eq_true, if_false, String.toList_append,
    List.append_assoc, hempty, List.nil_append, List.append_nil]
  rfl

end Draft

/-! ### The loop -/

/-- The environment of the loop. -/
def searching (s : Scalar) (env : Env) : Env :=
  (env.openScope.extend "value" (.scalar s) false).extend "value_index" (.scalar .uint) false

/-- The environment of a round. -/
def inRound (s : Scalar) (env : Env) : Env :=
  ((searching s env).openScope.extend "i" (.scalar .uint) false).looped

/-- The environment in which a candidate is judged. -/
def judging (s : Scalar) (env : Env) : Env := (inRound s env).extend "candidate" (.scalar s) false

/-- The variables of the kernel when `k` is the best index so far and `i` the next one. -/
def slotValues (s : Scalar) (f : Nat → Int) (out count b k i : Nat) : List Value :=
  values out count b ++ [s.holding (f k), Scalar.uint.holding k, Scalar.uint.holding i]

/-- What the kernel knows after it has looked at `i` elements. -/
def Seen (s : Scalar) (sign : Sign) (f : Nat → Int) (out b count : Nat) (st : Store) (i : Nat)
    (p : Point) : Prop :=
  ∃ k, FirstBest sign f i k ∧ p.Has 7 (slotValues s f out count b k i) st

/-- What it knows when it also has the next element, and `k` is best among the first `m`. -/
def Judged (s : Scalar) (sign : Sign) (f : Nat → Int) (out b count : Nat) (st : Store) (i m : Nat)
    (p : Point) : Prop :=
  ∃ k, FirstBest sign f m k ∧ p.Has 7 (slotValues s f out count b k i ++ [s.holding (f i)]) st

section Loop

variable {s : Scalar} {sign : Sign} {n out b count : Nat} {c : Int} {st : Store} {rounds : Nat} {env : Env}

/-- Where the variables are. -/
theorem find?_searching (henv : env.Holds (args s out c b)) :
    (searching s env).slots = 5 ∧
    (searching s env).find? "_buf0" = some ⟨0, .pointer (.scalar .uint) .global false, false⟩ ∧
    (searching s env).find? "size" = some ⟨1, .scalar .uint, true⟩ ∧
    (searching s env).find? "_buf1" = some ⟨2, .pointer (.scalar s) .global true, false⟩ ∧
    (searching s env).find? "value" = some ⟨3, .scalar s, false⟩ ∧
    (searching s env).find? "value_index" = some ⟨4, .scalar .uint, false⟩ ∧
    ∀ x ∉ ["_buf0", "size", "_buf1"], env.find? x = none := by
  have hslots : env.slots = 3 := henv.slots
  have hnone : ∀ x ∉ ["_buf0", "size", "_buf1"], env.find? x = none := by
    intro x hx
    refine henv.find?_none fun a ha => ?_
    rintro rfl
    exact hx (List.mem_map_of_mem ha)
  have hbuf₀ : env.find? "_buf0" = some _ := henv.finds (i := 0) rfl
  have hsize : env.find? "size" = some _ := henv.finds (i := 1) rfl
  have hbuf₁ : env.find? "_buf1" = some _ := henv.finds (i := 2) rfl
  refine ⟨?_, ?_, ?_, ?_, ?_, ?_, hnone⟩ <;>
    simp [searching, hslots, hbuf₀, hsize, hbuf₁, NamedTy.ofTy, DraftArg.toVariable, DraftArg.isBuffer]

theorem find?_judging (henv : env.Holds (args s out c b)) :
    (inRound s env).slots = 6 ∧
    (inRound s env).find? "_buf1" = some ⟨2, .pointer (.scalar s) .global true, false⟩ ∧
    (inRound s env).find? "candidate" = none ∧
    (inRound s env).find? "i" = some ⟨5, .scalar .uint, false⟩ ∧
    (judging s env).find? "i" = some ⟨5, .scalar .uint, false⟩ ∧
    (judging s env).find? "candidate" = some ⟨6, .scalar s, false⟩ ∧
    (judging s env).find? "value" = some ⟨3, .scalar s, false⟩ ∧
    (judging s env).find? "value_index" = some ⟨4, .scalar .uint, false⟩ := by
  obtain ⟨hslots, -, -, hbuf₁, hvalue, hindex, hnone⟩ := find?_searching henv
  have hfree : (searching s env).find? "candidate" = none := by
    simp [searching, hnone]
  refine ⟨?_, ?_, ?_, ?_, ?_, ?_, ?_, ?_⟩ <;>
    simp [judging, inRound, hslots, hbuf₁, hvalue, hindex, hfree, NamedTy.ofTy]

theorem supplies_candidate (hs : s.isInteger = true) (hn : n < 2 ^ 63) (hcount : count < 2 ^ 32)
    (hwithin : ∀ j < count, st.Within s.size b (reach n j)) (henv : env.Holds (args s out c b))
    {f : Nat → Int} (hf : ∀ j, f j = st.integer s b (reach n j)) (i : Nat) :
    (inRound s env).Supplies (Snippet.element "_buf1" ((Snippet.name "i").shifted n)).tree (.scalar s)
      (fun p => Seen s sign f out b count st i p ∧ 1 ≤ i ∧ i < count)
      (fun p v => Judged s sign f out b count st i i (p.put (inRound s env).slots v)) := by
  obtain ⟨hslots, hbuf₁, -, hi, -⟩ := find?_judging henv
  obtain ⟨g, hg, hgvalue⟩ := Env.indexes_shifted hi rfl hn
  refine Env.supplies_element hbuf₁ rfl hs hg ?_
  rintro p ⟨⟨k, hbest, hp⟩, -, hi⟩
  have hindex := @hgvalue p.vars i (by omega) (hp.at rfl)
  refine ⟨b, reach n i, hp.at rfl, hindex, hp.store ▸ hwithin i hi, k, hbest, ?_⟩
  rw [hslots, hp.store, ← hf]
  exact hp.push (by simp [slotValues, values]) _

/-- The candidate is compared with the best element so far. -/
theorem decides_candidate (hs : s.isInteger = true) (henv : env.Holds (args s out c b))
    {f : Nat → Int} (hf : ∀ j, f j = st.integer s b (reach n j)) (i : Nat) :
    (judging s env).Decides (Snippet.binary sign.operator (.name "candidate") (.name "value")).tree
      (Judged s sign f out b count st i i)
      (fun p => ∃ k, FirstBest sign f (i + 1) i ∧
        p.Has 7 (slotValues s f out count b k i ++ [s.holding (f i)]) st)
      (Judged s sign f out b count st i (i + 1)) := by
  obtain ⟨-, -, -, -, -, hcandidate, hvalue, -⟩ := find?_judging henv
  have hsized : ∀ j, Literal.Sized s (f j) := fun j => hf j ▸ Scalar.sized_spelled hs _
  have hcomparison : sign.operator.isComparison = true := by cases sign <;> rfl
  refine Env.decides_compare (s := s) (Env.checks_ident hcandidate rfl) (Env.checks_ident hvalue rfl)
    hcomparison ?_
  rintro p ⟨k, hbest, hp⟩
  have hnew : p.vars.at 6 = s.holding (f i) := hp.at rfl
  have hold : p.vars.at 3 = s.holding (f k) := hp.at rfl
  refine ⟨f i, f k, hsized i, hsized k, ?_, ?_, ?_⟩
  · rw [hnew]
    rfl
  · rw [hold]
    rfl
  · rw [Sign.relates_operator]
    by_cases hbeats : sign.Beats (f i) (f k)
    · simp only [hbeats, decide_true, if_true]
      exact ⟨k, hbest.better hbeats, hp⟩
    · simp only [hbeats, decide_false, Bool.false_eq_true, if_false]
      exact ⟨k, hbest.stays hbeats, hp⟩

/-- A candidate that is better takes the place of the best element. -/
theorem takes_replace (henv : env.Holds (args s out c b)) {f : Nat → Int} (i : Nat) :
    (Listing.assign (.name "value") (.name "candidate") <|
      .assign (.name "value_index") (.name "i") .done).Takes rounds (judging s env).openScope.openScope
      (judging s env).openScope.openScope
      (fun p => ∃ k, FirstBest sign f (i + 1) i ∧
        p.Has 7 (slotValues s f out count b k i ++ [s.holding (f i)]) st)
      (Judged s sign f out b count st i (i + 1)) := by
  obtain ⟨-, -, -, -, hi, hcandidate, hvalue, hindex⟩ := find?_judging henv
  have hassign : (Listing.assign (.name "value_index") (.name "i") .done).Takes rounds
      (judging s env).openScope.openScope (judging s env).openScope.openScope
      (fun p => ∃ k, FirstBest sign f (i + 1) i ∧
        p.Has 7 ((slotValues s f out count b k i ++ [s.holding (f i)]).set 3 (s.holding (f i))) st)
      (Judged s sign f out b count st i (i + 1)) := by
    refine Listing.takes_assign (t := .scalar .uint) hindex rfl rfl (Listing.takes_done fun _ h => h) ?_
    refine Env.supplies_ident hi rfl ?_
    rintro p ⟨k, hbest, hp⟩
    have hnext : p.vars.at 5 = Scalar.uint.holding i := hp.at rfl
    rw [hnext]
    exact ⟨i, hbest, hp.set (i := 4) (by decide) _⟩
  refine Listing.takes_assign (t := .scalar s) hvalue rfl rfl hassign ?_
  refine Env.supplies_ident hcandidate rfl ?_
  rintro p ⟨k, hbest, hp⟩
  have hnew : p.vars.at 6 = s.holding (f i) := hp.at rfl
  rw [hnew]
  exact ⟨k, hbest, hp.set (i := 3) (by decide) _⟩

/-- **A round looks at one more element.** -/
theorem takes_round (hs : s.isInteger = true) (hn : n < 2 ^ 63) (hcount : count < 2 ^ 32)
    (hwithin : ∀ j < count, st.Within s.size b (reach n j)) (henv : env.Holds (args s out c b))
    (hknows : env.KnowsIntegers) {f : Nat → Int} (hf : ∀ j, f j = st.integer s b (reach n j)) (i : Nat) :
    (round s sign n).Takes rounds (inRound s env) (judging s env)
      (fun p => Seen s sign f out b count st i p ∧ 1 ≤ i ∧ i < count)
      (fun p => p.vars.at 5 = Scalar.uint.holding i ∧
        Seen s sign f out b count st (i + 1) (p.put 5 (Scalar.uint.holding (i + 1 : Nat)))) := by
  obtain ⟨-, -, hfree, -⟩ := find?_judging henv
  have hdone : Listing.done.Takes rounds (judging s env) (judging s env)
      (Judged s sign f out b count st i (i + 1)) (fun p => p.vars.at 5 = Scalar.uint.holding i ∧
        Seen s sign f out b count st (i + 1) (p.put 5 (Scalar.uint.holding (i + 1 : Nat)))) := by
    refine Listing.takes_done ?_
    rintro p ⟨k, hbest, hp⟩
    exact ⟨hp.at rfl, k, hbest, hp.init.set (i := 5) (by decide) _⟩
  have hknown : (inRound s env).Resolves (.scalar s) := fun spec hspec => by
    simpa [inRound, searching] using hknows s hs spec hspec
  exact Listing.takes_declare hfree hknown nofun
    (Listing.takes_branch (decides_candidate hs henv hf i) (takes_replace henv i) (fun _ h => h) hdone)
    (supplies_candidate hs hn hcount hwithin henv hf i)

/-- **The loop finds the first extremum**, and the kernel stores its index. -/
theorem takes_listing (hs : s.isInteger = true) (hn : n < 2 ^ 63) (hpos : 0 < count)
    (hcount : count < 2 ^ 32) (hwithin : ∀ j < count, st.Within s.size b (reach n j))
    (hout : (st.getD out #[]).size = 4) (henv : env.Holds (args s out c b))
    (hknows : env.KnowsIntegers) (hrounds : count < rounds) :
    ∃ env', env'.slots = 7 ∧ (listing s sign n).Takes rounds env.openScope env'
      (fun p => p.Has 7 (values out count b) st)
      (fun p => ∃ k, FirstBest sign (fun j => st.integer s b (reach n j)) count k ∧
        p.store = st.setIfInBounds out (Bytes.ofNat 4 k).toArray) := by
  let f := fun j => st.integer s b (reach n j)
  obtain ⟨hslots, hbuf₀, hsize, -, -, hindex, hnone⟩ := find?_searching henv
  have henv₀ : env.slots = 3 := henv.slots
  let after := (searching s env).closeTo (judging s env)
  have hstore : (Listing.assign (.unary .mul .mul (.name "_buf0")) (.name "value_index") .done).Takes
      rounds after after (Seen s sign f out b count st count) (fun p => ∃ k, FirstBest sign f count k ∧
        p.store = st.setIfInBounds out (Bytes.ofNat 4 k).toArray) := by
    refine Listing.takes_store (t := .scalar .uint) hbuf₀ rfl (Listing.takes_done fun _ h => h) ?_
    refine Env.supplies_ident hindex rfl ?_
    rintro p ⟨k, hbest, hp⟩
    have hfound : p.vars.at 4 = Scalar.uint.holding k := hp.at rfl
    rw [hfound, hp.store]
    exact ⟨out, _, hp.at rfl, Store.store_index hout (Nat.lt_trans hbest.lt hcount), k, hbest, rfl⟩
  have hround : ∀ i, (round s sign n).Takes rounds (inRound s env) (judging s env) _ _ := fun i =>
    takes_round hs hn hcount hwithin henv hknows (fun j => (rfl : f j = _)) i
  rw [← hslots] at hround
  have hcounts : ∀ i p, Seen s sign f out b count st i p →
      p.vars.at (searching s env).slots = Scalar.uint.holding i ∧
        p.vars.at 1 = Scalar.uint.holding count := by
    rintro i p ⟨k, -, hp⟩
    rw [hslots]
    exact ⟨hp.at rfl, hp.at rfl⟩
  have hstart : ∀ p : Point, p.Has 7 (values out count b ++ [s.holding (f 0)] ++ [Scalar.uint.holding 0])
      st → Seen s sign f out b count st 1 (p.put (searching s env).slots (Scalar.uint.holding 1)) := by
    intro p hp
    rw [hslots]
    exact ⟨0, .one sign f, hp.push (by simp [values]) _⟩
  have hi : (searching s env).find? "i" = none := by simp [searching, hnone]
  have hloop := Listing.takes_count hi (hknows .uint rfl) hsize rfl hpos hcount hrounds hcounts hstart
    hround (fun _ h => h) hstore
  have hfirst : (Listing.declare false (.scalar .uint) "value_index" (.digits 0) <|
      .count "i" "size" (round s sign n) <|
      .assign (.unary .mul .mul (.name "_buf0")) (.name "value_index") .done).Takes rounds
      (env.openScope.extend "value" (.scalar s) false) after
      (fun p => p.Has 7 (values out count b ++ [s.holding (f 0)]) st)
      (fun p => ∃ k, FirstBest sign f count k ∧
        p.store = st.setIfInBounds out (Bytes.ofNat 4 k).toArray) := by
    refine Listing.takes_declare (by simp [hnone]) (hknows .uint rfl) nofun hloop ?_
    refine Env.supplies_digits (by decide) fun p hp => ?_
    rw [Env.slots_extend, Env.slots_openScope, henv₀]
    exact hp.push (by simp [values]) _
  refine ⟨after, ?_, Listing.takes_declare (by simp [hnone]) (hknows s hs) nofun hfirst ?_⟩
  · show (judging s env).slots = 7
    simp [judging, inRound, hslots]
  · obtain ⟨g, hg, hgvalue⟩ := @Env.indexes_zero_shifted env.openScope n hn
    have hbuf₁ : env.openScope.find? "_buf1" = some _ := henv.finds (i := 2) rfl
    refine Env.supplies_element hbuf₁ rfl hs hg fun p hp => ?_
    refine ⟨b, reach n 0, hp.at rfl, hgvalue _, hp.store ▸ hwithin 0 hpos, ?_⟩
    rw [hp.store, Env.slots_openScope, henv₀]
    exact hp.push (by simp [values]) _

end Loop

/-! ### Building and running the kernel -/

section Kernel

variable {s : Scalar} {sign : Sign} {n out b count : Nat} {st : Store}

theorem legible_listing {scope : Code.Scope} (hscope : Ty.Heard [] scope) :
    (listing s sign n).Legible scope := by
  have htype : ∀ r : Scalar, (Ty.scalar r).isData = true ∧
      Code.Scope.IsTypeWord scope (Ty.scalar r).name := fun r =>
    ⟨rfl, Ty.isTypeWord_known hscope rfl (by simp)⟩
  have hname : ∀ x, isIdent x = true → (Snippet.name x).IsOperand scope := fun x hx =>
    (Snippet.isStem_name hx).operand
  have hbegins : ∀ x, LeadsPlace x → Listing.Begins scope (Snippet.name x) := fun x hx =>
    Listing.begins_name hx hscope
  have hop : Operation.isInfix sign.operator = true := by cases sign <;> rfl
  have hvalue : LeadsPlace "value" :=
    ⟨by decide, by decide +kernel, fun ts => Ty.name_tuple_ne ts rfl, by decide⟩
  have hindex : LeadsPlace "value_index" :=
    ⟨by decide, by decide +kernel, fun ts => Ty.name_tuple_ne ts rfl, by decide⟩
  have hi : LeadsPlace "i" := ⟨by decide, by decide +kernel, fun ts => Ty.name_tuple_ne ts rfl, by decide⟩
  have hround : (round s sign n).Legible scope :=
    ⟨htype s, ⟨by decide, by decide⟩,
      (Snippet.isStem_element (by decide) ((Snippet.isStem_name (by decide)).legible_shifted n)).legible,
      Snippet.legible_binary hop (hname _ (by decide)) (hname _ (by decide)),
      ⟨⟨(hname _ (by decide)).legible, hbegins _ hvalue⟩, (hname _ (by decide)).legible,
        ⟨(hname _ (by decide)).legible, hbegins _ hindex⟩, (hname _ (by decide)).legible, trivial⟩,
      trivial⟩
  exact ⟨htype s, ⟨by decide, by decide⟩,
    (Snippet.isStem_element (by decide) (Snippet.legible_zero_shifted n)).legible,
    htype .uint, ⟨by decide, by decide⟩, (Snippet.isOperand_digits 0).legible,
    ⟨⟨by decide, by decide⟩, hbegins _ hi⟩, by decide, hround,
    ⟨Snippet.legible_unary (by decide) (hname _ (by decide)), _, _, rfl, rfl, rfl⟩,
    (hname _ (by decide)).legible, trivial⟩

theorem usable_args (hs : s.isInteger = true) {c : Int} :
    ∀ a ∈ args s out c b, a.Usable ∧ ∀ fp64, a.elem.Known [] fp64 := by
  have hknown : ∀ {r : Scalar}, r.isInteger = true → ∀ fp64, (Ty.scalar r).Known [] fp64 := by
    refine fun {r} hr fp64 => ⟨by simp, fun hdouble => ?_⟩
    rw [of_decide_eq_true hdouble] at hr
    cases hr
  have hident : isIdent "_buf0" = true ∧ isIdent "size" = true ∧ isIdent "_buf1" = true := by decide
  have hplain : isQualifier (.name "_buf0") = false ∧ isQualifier (.name "size") = false ∧
      isQualifier (.name "_buf1") = false := by decide
  refine List.forall_mem_cons.mpr ⟨⟨⟨hident.1, hplain.1, rfl, ?_⟩, hknown rfl⟩,
    List.forall_mem_cons.mpr ⟨⟨⟨hident.2.1, hplain.2.1, rfl, by simp⟩, hknown rfl⟩,
      List.forall_mem_singleton.mpr ⟨⟨hident.2.2, hplain.2.2, rfl, ?_⟩, hknown hs⟩⟩⟩
  all_goals
    rintro t space readOnly ⟨⟩
    exact .inl rfl

/-- What the body of the kernel does with how many slots. -/
def Searches (s : Scalar) (sign : Sign) (n out b count : Nat) (st : Store) (a : Action)
    (slots : Nat) : Prop :=
  slots = 7 ∧ a.Takes Program.loopBudget (fun p => p.Has 7 (values out count b) st)
    (fun p => ∃ k, FirstBest sign (fun j => st.integer s b (reach n j)) count k ∧
      p.store = st.setIfInBounds out (Bytes.ofNat 4 k).toArray)

theorem builds_draft (hs : s.isInteger = true) (hn : n < 2 ^ 63) (hpos : 0 < count)
    (hcount : count < 2 ^ 32) (hwithin : ∀ j < count, st.Within s.size b (reach n j))
    (hout : (st.getD out #[]).size = 4) :
    ∃ p k, Program.build (.ofString (draft s sign n out b count).source.1) = .built p ∧
      p.kernel? "serial_find_extrema" = some k ∧
      k.IsDrafted "serial_find_extrema" (args s out count b) (Searches s sign n out b count st) := by
  let d := draft s sign n out b count
  have hdeclares : d.pre.Declares [] false := ⟨rfl, rfl, rfl, .nil, nofun⟩
  obtain ⟨fp64, hsettled, -⟩ := Draft.declares_settle hdeclares
  have hpart : d.settle.part = d.part := Draft.part_settle d
  have hname : d.settle.name = "serial_find_extrema" := Draft.name_settle d
  have hargs : d.settle.part.args = args s out count b := congrArg DraftPart.args hpart
  have hbody : d.settle.part.body = (listing s sign n).text 1 := congrArg DraftPart.body hpart
  have hscans : ∀ {rest us}, Token.Scans rest us → Token.Scans (d.settle.part.body.toList ++ rest)
      ((listing s sign n).tokens ++ us) := by
    intro rest us h
    have hheard : Ty.Heard [] { finish := 0, typedefs := [] } := rfl
    rw [hbody]
    exact (legible_listing hheard).scans 1 h
  have hnodup : ((args s out count b).map (·.name)).Nodup := by
    show ["_buf0", "size", "_buf1"].Nodup
    decide
  have hchecks : Env.ChecksBody [] fp64 (args s out count b) (listing s sign n).Trees
      (Searches s sign n out b count st) := by
    intro env hknows henv ss hss
    have hrounds : count < Program.loopBudget := by
      show count < 0x4000000000000000
      omega
    obtain ⟨env', hslots, htakes⟩ := takes_listing hs hn hpos hcount hwithin hout henv
      (hknows.integers .nil) hrounds
    obtain ⟨a, ha, htakes⟩ := htakes ss hss
    exact ⟨a, env', ha, hslots, htakes⟩
  rw [← hargs] at hchecks
  have hbuilt := Draft.build_draft hsettled (by rw [hname]; decide) (by rw [hname]; decide)
    (by rw [hname]; decide) (by rw [hargs]; nofun)
    (by rw [hargs]; exact fun a ha => ⟨(usable_args hs a ha).1, (usable_args hs a ha).2 fp64⟩)
    (by rw [hargs]; exact hnodup) hscans (fun scope hscope => (legible_listing hscope).reads []) hchecks
  rw [hname, hargs] at hbuilt
  have hsource : d.source.1 = d.settle.text := rfl
  rw [← hsource] at hbuilt
  exact hbuilt

theorem readArgs_bound {k : CheckedFn} (hcount : count < 2 ^ 32)
    (hparams : k.params = (args s out count b).map fun a => (a.name, a.type)) :
    Program.readArgs k (bound out count b) = .ok (values out count b) := by
  have hread := Program.readArg_count k.name 1 "size" hcount
  rw [Program.readArgs, hparams]
  show (do
    let v ← Program.readArg k.name 1 "size" (.scalar .uint) { bytes := Bytes.ofNat 4 count }
    let vs ← pure [Value.pointer ⟨some b, 0⟩]
    pure (v :: vs)) >>= (fun vs => Except.ok (Value.pointer ⟨some out, 0⟩ :: vs)) = _
  rw [hread]
  rfl

/-- **The kernel stores the index of the first extremum**, and changes nothing else. -/
theorem run_draft (hs : s.isInteger = true) (hn : n < 2 ^ 63) (hpos : 0 < count)
    (hcount : count < 2 ^ 32) (hwithin : ∀ j < count, st.Within s.size b (reach n j))
    (hout : (st.getD out #[]).size = 4) :
    ∃ p k, Program.build (.ofString (draft s sign n out b count).source.1) = .built p ∧
      p.kernel? "serial_find_extrema" = some k ∧
      k.params = (args s out count b).map (fun a => (a.name, a.type)) ∧
      ∃ i, FirstBest sign (fun j => st.integer s b (reach n j)) count i ∧
        ∀ crew, p.runBy crew Program.loopBudget k (bound out count b) 0 1 st =
          (.ok (), st.setIfInBounds out (Bytes.ofNat 4 i).toArray) := by
  obtain ⟨p, k, hbuild, hkernel, hk⟩ := builds_draft hs hn hpos hcount hwithin hout
  refine ⟨p, k, hbuild, hkernel, hk.params, ?_⟩
  obtain ⟨hslots, htakes⟩ := hk.body
  let item : WorkItem := { offset := 0, extent := 1, id := 0 }
  have hlength : (values out count b).length ≤ k.slots := by
    rw [hslots]
    exact (by decide : 3 ≤ 7)
  have hstart : Point.Has 7 (values out count b) st ⟨item, k.frame (values out count b), st⟩ :=
    ⟨CheckedFn.begin_frame hlength, by rw [CheckedFn.size_frame, hslots], rfl⟩
  obtain ⟨q, hrun, -, i, hbest, hstore⟩ :=
    htakes (p.call item Program.loopBudget maxCallDepth) _ hstart
  have hitem : p.runItem Program.loopBudget k (values out count b) item st =
      (.ok (), st.setIfInBounds out (Bytes.ofNat 4 i).toArray) := by
    rw [Program.runItem, Exec.bind_ok hrun, hstore]
    rfl
  obtain ⟨hst, hok⟩ := Program.run_single (readArgs_bound hcount hk.params) (Int.le_refl 0) p st
  rw [hitem] at hst hok
  have hrun : p.run k (bound out count b) 0 1 st =
      (.ok (), st.setIfInBounds out (Bytes.ofNat 4 i).toArray) := Prod.ext (hok.mpr ⟨(), rfl⟩) hst
  refine ⟨i, hbest, fun crew => ?_⟩
  rw [Program.run] at hrun
  rw [Program.runBy_alone (.inr (Int.le_refl 1)), hrun]
  rfl

end Kernel

end Extremum

/-! ### The algorithm -/

section Algorithm

open Act Machine

variable {s : Scalar} {sign : Sign} {n count ctx q : Nat} {b b' : TypedBuffer} {m : Machine}
  {o : CompileOptions}

/-- The kernel finds the extremum next to a new index. -/
theorem Extremum.run_beside (hm : Serves ctx q o m) (hs : s.isInteger = true)
    (helem : b.elem = .scalar s) (hrange : HoldsRange ctx b n count m) (hpos : 0 < count)
    (hcount : count < 2 ^ 32) :
    ∃ i, FirstBest sign (fun j => m.memories.integer s b.buffer (reach n j)) count i ∧
      Gives (do
        runDraft (extremum m.buffers.size count (.element b n) s sign) (some ctx) q 0 o
        let found ← readIndex q (indexAt ctx m.buffers.size)
        return (Cursor.element b n).advance found) (m.addIndex ctx) fun c m' =>
          c = (Cursor.element b n).advance i ∧
          m'.memories = (m.addIndex ctx).memories.setIfInBounds m.buffers.size (Bytes.ofNat 4 i).toArray ∧
          m'.buffers = (m.addIndex ctx).buffers := by
  have hbuffer : b.buffer < m.memories.size := hm.memories ▸ hrange.lt
  have hne : m.buffers.size ≠ b.buffer := Nat.ne_of_gt hrange.lt
  have hgetD := getD_addIndex ctx hbuffer
  have hinteger : ∀ j, (m.addIndex ctx).memories.integer s b.buffer j =
      m.memories.integer s b.buffer j := by
    intro j
    rw [Store.integer, hgetD, Store.integer]
  have hwithin : ∀ j < count, (m.addIndex ctx).memories.Within s.size b.buffer (reach n j) := by
    intro j hj
    rw [Store.Within, hgetD]
    exact hrange.within_reach helem hj
  obtain ⟨p, k, hbuild, hkernel, hparams, i, hbest, hrun⟩ := Extremum.run_draft hs (hrange.place_lt helem)
    hpos hcount hwithin (by rw [getD_addIndex_self hm.memories]; rfl)
  simp only [hinteger] at hbest
  obtain ⟨size, halive⟩ := hrange.alive
  have hbindable : ∀ a ∈ Extremum.args s m.buffers.size count b.buffer,
      a.Bindable ctx (m.addIndex ctx) := by
    refine List.forall_mem_cons.mpr ⟨.buffer rfl rfl (alive_addIndex ctx m),
      List.forall_mem_cons.mpr ⟨.value rfl rfl rfl ?_,
        List.forall_mem_singleton.mpr (.buffer rfl rfl halive.addIndex)⟩⟩
    simp [Ty.size, Scalar.size]
  have hargs : (Extremum.args s m.buffers.size count b.buffer).map DraftArg.preset? =
      (Extremum.bound m.buffers.size count b.buffer).map some := by
    have hmod : ((count : Int) % 0x100000000).toNat = count := by omega
    rw [Extremum.args, hmod]
    rfl
  refine ⟨i, hbest, ?_⟩
  rw [Extremum.extremum_eq hs hne helem]
  exact gives_answer hm.addIndex hm.trusted.addIndex hm.options (alive_addIndex ctx m)
    ⟨hbuild, hkernel, hparams, hbindable, hargs⟩ (Int.le_refl 0) hrun
    (by simp [Machine.addIndex, hm.memories]) (Nat.lt_trans hbest.lt hcount)

/-- In every range of `count` elements from place `n` on, whatever they are, the first best one of those
that the index reaches is the first best one of the range. -/
def Faithful (sign : Sign) (n count : Nat) : Prop :=
  ∀ (f : Nat → Int) (i : Nat),
    FirstBest sign (fun j => f (reach n j)) count i → FirstBest sign (fun j => f (n + j)) count i

/-- **The index is right for every range that it does not wrap in**, and for no other: there, the last
element is never looked at. -/
theorem faithful_iff (sign : Sign) (n : Nat) {count : Nat} (hpos : 0 < count) :
    Faithful sign n count ↔ n + count ≤ 2 ^ 32 ∨ 2 ^ 31 ≤ n := by
  constructor
  · intro h
    by_contra hwraps
    have hsmall : n < 2 ^ 31 := by omega
    obtain ⟨x, y, hbeats⟩ : ∃ x y, sign.Beats x y := by
      cases sign
      · exact ⟨0, 1, by decide⟩
      · exact ⟨1, 0, by decide⟩
    let last := n + count - 1
    let f : Nat → Int := fun e => if e = last then x else y
    have hreach : ∀ j, f (reach n j) = f n := by
      intro j
      have hlt : reach n j < 2 ^ 32 := by
        rw [reach, if_pos hsmall]
        exact Nat.mod_lt _ (by decide)
      have hne : reach n j ≠ last := by omega
      have hne' : n ≠ last := by omega
      simp only [f, if_neg hne, if_neg hne']
    have hzero : FirstBest sign (fun j => f (reach n j)) count 0 := by
      refine ⟨hpos, fun j _ => ?_, nofun⟩
      simp only [hreach]
      exact sign.not_beats_self _
    refine (h f 0 hzero).best (count - 1) (by omega) ?_
    have hlast : n + (count - 1) = last := by omega
    have hne : n + 0 ≠ last := by omega
    simp only [f, if_pos hlast, if_neg hne]
    exact hbeats
  · intro hplain f i hi
    exact hi.congr fun j hj => by rw [reach_eq (by omega)]

/-- The position is that of the first element that no other one beats, among those that the index of the
kernel reaches, and no memory that was there has changed. -/
theorem gives_runExtremum (hm : Serves ctx q o m) (hs : s.isInteger = true) (helem : b.elem = .scalar s)
    (hrange : HoldsRange ctx b n count m) (hpos : 0 < count) (hcount : count < 2 ^ 32)
    (hlast : b'.buffer = b.buffer) :
    Gives (runExtremum (.element b n) (.element b' (n + count : Nat)) sign q o) m fun c m' =>
      (∃ i : Nat, c = (Cursor.element b n).advance i ∧
        FirstBest sign (fun j => m.memories.integer s b.buffer (reach n j)) count i) ∧
      ∀ k < m.memories.size, m'.memories.getD k #[] = m.memories.getD k #[] := by
  obtain ⟨i, hbest, hanswer⟩ := Extremum.run_beside hm hs helem hrange hpos hcount
  have hcomparable : comparable (.element b n) = pure s := by
    have hbool : s.isBool = false := by
      cases hc : s <;> first | rfl | simp [hc, Scalar.isInteger] at hs
    simp only [comparable, Cursor.ty, helem, hbool]
    rfl
  have hzero : ¬ (count : Int) = 0 := by omega
  have hctx : (Cursor.element b n).ctx? = some ctx := hrange.context
  unfold runExtremum
  refine gives_ofExcept_bind (Cursor.count_element hlast (by omega)) ?_
  rw [hcomparable, hctx]
  refine gives_pure_bind ?_
  simp only [if_neg hzero]
  refine (gives_withIndex hm.toReady hanswer ?_).mono ?_
  · rintro c m' ⟨-, -, hbuffers⟩
    rw [Alive, hbuffers]
    exact alive_addIndex ctx m
  · rintro c _ ⟨m', ⟨rfl, hmemories, -⟩, rfl⟩
    refine ⟨⟨i, rfl, hbest⟩, fun k hk => ?_⟩
    show m'.memories.getD k #[] = _
    have hk' : m.buffers.size ≠ k := by
      rw [← hm.memories]
      exact Nat.ne_of_gt hk
    rw [hmemories, ← getD_addIndex ctx hk]
    simp [Array.getD_eq_getD_getElem?, Array.getElem?_setIfInBounds_ne hk']

/-- **The extremum of what the index reaches is found.**  The position is that of the first element
that no other one beats, among those that the index of the kernel reaches, and no memory that was there
has changed.  It is the first best element of the range whenever the index does not wrap; a range in which
it does has contents for which the position is another one. -/
theorem extremum_found (hm : Serves ctx q o m) (hs : s.isInteger = true) (helem : b.elem = .scalar s)
    (hrange : HoldsRange ctx b n count m) (hpos : 0 < count) (hcount : count < 2 ^ 32)
    (hlast : b'.buffer = b.buffer) :
    (Gives (runExtremum (.element b n) (.element b' (n + count : Nat)) sign q o) m fun c m' =>
      (∃ i : Nat, c = (Cursor.element b n).advance i ∧
        FirstBest sign (fun j => m.memories.integer s b.buffer (reach n j)) count i ∧
        (Faithful sign n count →
          FirstBest sign (fun j => m.memories.integer s b.buffer (n + j)) count i)) ∧
      ∀ k < m.memories.size, m'.memories.getD k #[] = m.memories.getD k #[]) ∧
    (Faithful sign n count ↔ n + count ≤ 2 ^ 32 ∨ 2 ^ 31 ≤ n) := by
  refine ⟨(gives_runExtremum hm hs helem hrange hpos hcount hlast).mono ?_, faithful_iff sign n hpos⟩
  rintro c m' ⟨⟨i, rfl, hbest⟩, hkept⟩
  exact ⟨⟨i, rfl, hbest, fun hfaithful => hfaithful _ i hbest⟩, hkept⟩

/-- A machine with one context, its queue, and a buffer with some bytes. -/
def single (block : Bytes) : Machine where
  memories := #[block]
  contexts := #[{ id := "c0" }]
  buffers := #[{ origin := .context 0, size := block.size }]
  queues := #[(0, {})]

theorem serves_single (block : Bytes) : Serves 0 0 {} (single block) where
  opened := rfl
  queue := rfl
  trusted := nofun
  options := rfl
  memories := rfl

/-- The integers of a buffer: 1, 5, 3 and 3. -/
def fourInts : Bytes := #[1, 0, 0, 0, 5, 0, 0, 0, 3, 0, 0, 0, 3, 0, 0, 0]

def fourBuffer : TypedBuffer := { buffer := 0, bytes := 16, elem := .scalar .int, ctx? := some 0 }

/-- After the first integer, the least one is at position 2. -/
theorem least_of_four :
    Gives (runExtremum (.element fourBuffer 1) (.element fourBuffer 4) .less 0 {}) (single fourInts)
      fun c _ => c = .element fourBuffer 2 := by
  have hrange : HoldsRange 0 fourBuffer 1 3 (single fourInts) :=
    ⟨rfl, ⟨16, rfl⟩, by decide, by decide⟩
  refine (extremum_found (serves_single fourInts) rfl rfl hrange (by decide) (by decide) rfl).1.mono ?_
  rintro _ m' ⟨⟨i, rfl, -, hbest⟩, -⟩
  have hfirst : FirstBest .less (fun j => (single fourInts).memories.integer .int 0 (1 + j)) 3 1 :=
    ⟨by decide, by decide, by decide⟩
  have hfaithful : Faithful .less 1 3 := (faithful_iff .less 1 (by decide)).mpr (.inl (by decide))
  obtain rfl := (hbest hfaithful).unique hfirst
  rfl

/-! ### A range that is too long -/

/-- Zeros, and a smaller byte behind them. -/
def lowEnd (n : Nat) : Bytes := (Array.replicate n 0).push 255

theorem size_lowEnd (n : Nat) : (lowEnd n).size = n + 1 := by simp [lowEnd]

theorem integer_lowEnd {n k : Nat} (hk : k ≤ n) :
    (single (lowEnd n)).memories.integer .char 0 k = if k = n then -1 else 0 := by
  have hlt : k < (lowEnd n).size := by
    rw [size_lowEnd]
    omega
  have hslice : Bytes.element (lowEnd n) Scalar.char.size k = [(lowEnd n)[k]] := by
    refine List.ext_getElem ?_ fun i _ hi => ?_
    · rw [Bytes.length_element (by simpa [Scalar.size] using Nat.succ_le_of_lt hlt)]
      rfl
    · obtain rfl : i = 0 := by simpa using hi
      simp [Bytes.element, Bytes.slice, Scalar.size]
  show Scalar.char.spelled (Bytes.element (lowEnd n) Scalar.char.size k) = _
  rw [hslice]
  split
  · have hend : (lowEnd n)[k] = 255 := by simp_all [lowEnd, Array.getElem_push]
    rw [hend]
    decide
  · have hzero : (lowEnd n)[k] = 0 := by
      have : k < n := by omega
      simp_all [lowEnd, Array.getElem_push]
    rw [hzero]
    decide

def wideBuffer : TypedBuffer :=
  { buffer := 0, bytes := 4294967297, elem := .scalar .char, ctx? := some 0 }

/-- The least element of the range is its last one, at `2 ^ 32`.  The index wraps before it gets there, and
the first position is given. -/
theorem wide_range_misses_least :
    (Gives (runExtremum (.element wideBuffer (2147483647 : Nat))
        (.element wideBuffer (2147483647 + 2147483650 : Nat)) .less 0 {}) (single (lowEnd 4294967296))
      fun c _ => c = .element wideBuffer 2147483647) ∧
    FirstBest .less (fun j => (single (lowEnd 4294967296)).memories.integer .char 0 (2147483647 + j))
      2147483650 2147483649 := by
  have hsize : ((single (lowEnd 4294967296)).memories.getD 0 #[]).size = 4294967297 :=
    size_lowEnd 4294967296
  have hrange : HoldsRange 0 wideBuffer 2147483647 2147483650 (single (lowEnd 4294967296)) :=
    ⟨rfl, ⟨_, rfl⟩, Nat.le_of_eq hsize.symm, by rw [wideBuffer, hsize]; decide⟩
  refine ⟨(gives_runExtremum (serves_single _) rfl rfl hrange (by decide) (by decide) rfl).mono ?_, ?_⟩
  · rintro _ m' ⟨⟨i, rfl, hbest⟩, -⟩
    have hreached : ∀ j, (single (lowEnd 4294967296)).memories.integer .char 0 (reach 2147483647 j) = 0 := by
      intro j
      have hlt : reach 2147483647 j < 4294967296 := by
        rw [reach, if_pos (by decide)]
        exact Nat.mod_lt _ (by decide)
      rw [integer_lowEnd (Nat.le_of_lt hlt), if_neg (Nat.ne_of_lt hlt)]
    have hfirst : FirstBest .less (fun j => (single (lowEnd 4294967296)).memories.integer .char 0
        (reach 2147483647 j)) 2147483650 0 := by
      refine ⟨by decide, fun j _ => ?_, nofun⟩
      simp only [hreached]
      exact Sign.not_beats_self .less 0
    obtain rfl := hbest.unique hfirst
    rfl
  · refine ⟨by decide, fun j hj => ?_, fun j hj => ?_⟩
    · simp only [integer_lowEnd (show 2147483647 + j ≤ 4294967296 by omega),
        integer_lowEnd (show 2147483647 + 2147483649 ≤ 4294967296 by decide)]
      split <;> decide
    · simp only [integer_lowEnd (show 2147483647 + j ≤ 4294967296 by omega),
        integer_lowEnd (show 2147483647 + 2147483649 ≤ 4294967296 by decide)]
      rw [if_neg (show ¬ 2147483647 + j = 4294967296 by omega)]
      decide

end Algorithm

end KernelForge.Sequence
