/-
Which listings and formulas the device accepts.

Where it only matters whether a listing is accepted, and not what it does, less has to be said of its
expressions: each has a type, and it either stands for a place that can be changed or it does not.
Both stay as they are when more variables are declared.  A listing is then accepted statement by
statement, and it is refused as soon as one of its statements is.

What is written for a basic formula is accepted by the device exactly when each place that the
formula assigns to is one for the device.  Everything else in it is always accepted: the variables
have names of their own, and their types are those that the formula was found to have.
-/
import KernelForge.Proofs.Formula.Computing
import KernelForge.Proofs.Formula.Emitting
import KernelForge.Proofs.Program.Listings

namespace KernelForge

theorem Ty.converts_of_storableAs {s t : Ty} (h : s.storableAs t = true) : Converts s t := by
  unfold storableAs at h
  rw [Bool.or_eq_true] at h
  rcases h with h | h
  · rw [of_decide_eq_true h]
    exact .same t
  · split at h
    · exact .scalar _ _
    · cases h

/-! ### Expressions -/

namespace Env

/-- The snippet is an expression of type `t`. -/
def Computes (env : Env) (p : Snippet) (t : Ty) : Prop :=
  ∀ e, p.tree e → ∃ x g, env.checkExpr e = .ok x ∧ x.Means t g

/-- A variable of type `t` can be given the value of the snippet. -/
def Initializes (env : Env) (p : Snippet) (t : Ty) : Prop :=
  ∀ e, p.tree e → ∃ x, env.checkExpr e = .ok x ∧ ∀ o, ∃ y, x.convert o (NamedTy.ofTy t) = .ok y

/-- The snippet is an expression of type `t`, here and wherever more is known than here; it stands for
a place that can be changed if `stored`, and for no place otherwise. -/
def Admits (env : Env) (p : Snippet) (t : Ty) (stored : Bool) : Prop :=
  ∀ env', env.Grows env' → ∀ e, p.tree e → ∃ x g, env'.checkExpr e = .ok x ∧ x.Means t g ∧
    x.place?.isSome = stored ∧ x.readOnly = false

variable {env env' : Env} {p q : Snippet} {s r t : Ty} {stored : Bool} {op : Operator}

theorem Admits.mono (h : env.Admits p t stored) (henv : env.Grows env') : env'.Admits p t stored :=
  fun _ h' => h _ (henv.trans h')

theorem Admits.computes (h : env.Admits p t stored) : env.Computes p t := by
  intro e he
  obtain ⟨x, g, hx, hmeans, -⟩ := h env (grows_refl env) e he
  exact ⟨x, g, hx, hmeans⟩

theorem Computes.initializes (h : env.Computes p s) (hconv : Ty.Converts s t) : env.Initializes p t := by
  intro e he
  obtain ⟨x, g, hx, hmeans⟩ := h e he
  refine ⟨x, hx, fun o => ?_⟩
  obtain ⟨y, hy, -⟩ := hmeans.convert hconv o
  exact ⟨y, hy⟩

theorem Supplies.initializes {pre : Point → Prop} {post : Point → Value → Prop}
    (h : env.Supplies p.tree t pre post) : env.Initializes p t := by
  intro e he
  obtain ⟨x, hx, hconvert⟩ := h e he
  refine ⟨x, hx, fun o => ?_⟩
  obtain ⟨y, hy, -⟩ := hconvert o
  exact ⟨y, hy⟩

theorem admits_name {x : String} {v : Variable} (hfind : env.find? x = some v)
    (htype : v.type = NamedTy.ofTy t) (hread : v.readOnly = false) : env.Admits (.name x) t true := by
  rintro env' henv _ ⟨o, rfl⟩
  exact ⟨_, _, check_ident (henv.finds hfind) o, Checked.means_ofVariable htype, rfl, hread⟩

/-- An element of a buffer that is not read-only. -/
theorem admits_element {x : String} {v : Variable} {i : Snippet} (hfind : env.find? x = some v)
    (htype : v.type = .pointer (NamedTy.ofTy t) .global false)
    (hi : ∀ env', env.Grows env' → ∃ g, env'.Indexes i.tree g) : env.Admits (.element x i) t true := by
  rintro env' henv _ ⟨o, bracket, y, rfl, hy⟩
  obtain ⟨g, hg⟩ := hi env' henv
  obtain ⟨z, place, hz, hztype, hterm, hplace, hread, hlocate⟩ :=
    check_element (henv.finds hfind) htype hg hy o bracket
  refine ⟨z, fun vars => do
    let l ← (vars.at v.slot).elementAt t (← g vars)
    Exec.load l.1 l.2 t, hz, ⟨hztype, fun call f => ?_⟩, by rw [hplace]; rfl, hread⟩
  rw [hterm, Term.eval, hlocate]
  simp only [bind_assoc, pure_bind]
  rfl

/-- A lane or a field of what stands for a place is a place. -/
theorem Admits.select {index : Int} (h : env.Admits p s stored) (helem : Formula.HasElement index s t) :
    env.Admits (p.select (Formula.elementName index s)) t stored := by
  rintro env' henv _ ⟨e, o, rfl, he⟩
  obtain ⟨x, g, hx, hmeans, hplace, hread⟩ := h env' henv e he
  obtain ⟨y, hy, hmeans'⟩ := hmeans.select helem o
  refine ⟨y, _, by rw [checkExpr, hx]; exact hy, hmeans', ?_⟩
  unfold Checked.select at hy
  rw [hmeans.type] at hy
  cases helem with
  | lane hlo hhi =>
    rename_i e w
    have hlanes := Checked.lanes?_elementName w index.toNat (by omega)
    simp only [NamedTy.ofTy, Formula.elementName, hlanes] at hy
    cases hy
    exact ⟨by simpa [Component.distinct] using hplace, hread⟩
  | field hlo ht =>
    rw [NamedTy.ofTy] at hy
    dsimp only at hy
    split at hy
    · cases hy
    · cases hy
      exact ⟨by simpa using hplace, hread⟩

/-! ### Structures made of their fields -/

/-- The snippets are expressions of some types. -/
inductive AdmitsAll (env : Env) : List Snippet → List Ty → Prop
  | nil : AdmitsAll env [] []
  | cons {p : Snippet} {ps : List Snippet} {t : Ty} {ts : List Ty} {stored : Bool}
      (hp : env.Admits p t stored) (hps : AdmitsAll env ps ts) : AdmitsAll env (p :: ps) (t :: ts)

theorem AdmitsAll.length_trees {ps : List Snippet} {ts : List Ty} (h : env.AdmitsAll ps ts) :
    ∀ {es : List Code.Expr}, Snippet.Trees ps es → es.length = ts.length := by
  induction h with
  | nil =>
    rintro _ rfl
    rfl
  | cons _ _ ih =>
    rintro _ ⟨e, es, rfl, -, hes⟩
    rw [List.length_cons, List.length_cons, ih hes]

/-- The fields of a structure need no conversion. -/
theorem AdmitsAll.checkFields {ps : List Snippet} {ts : List Ty} (h : env.AdmitsAll ps ts)
    (henv : env.Grows env') : ∀ {es : List Code.Expr}, Snippet.Trees ps es →
      ∃ xs, ∃ g : Vars → Exec (List Value), env'.checkFields es (NamedTy.ofTys ts) = .ok xs ∧
        ∀ call f, Term.evalAll call f (xs.map (·.term)) = g f.vars := by
  induction h with
  | nil =>
    rintro _ rfl
    refine ⟨[], fun _ => pure [], by simp [Env.checkFields], fun call f => ?_⟩
    rw [List.map_nil, Term.evalAll]
    rfl
  | @cons p ps t ts stored hp _ ih =>
    rintro _ ⟨e, es, rfl, he, hes⟩
    obtain ⟨x, g, hx, hmeans, -⟩ := hp env' henv e he
    obtain ⟨xs, gs, hxs, hvalues⟩ := ih hes
    refine ⟨x :: xs, fun vars => g vars >>= fun v => gs vars >>= fun vs => pure (v :: vs), ?_,
      fun call f => ?_⟩
    · have hconv : x.convert e.offset (NamedTy.ofTy t) = .ok x := by
        unfold Checked.convert
        rw [if_pos (by rw [hmeans.type])]
      rw [NamedTy.ofTys, Env.checkFields, hx]
      simp only [bind, Except.bind, hconv, hxs]
      rfl
    · rw [List.map_cons, Term.evalAll, hmeans.value, hvalues]

/-- A structure that is made of its fields is no place. -/
theorem admits_compound {ps : List Snippet} {ts : List Ty} (h : env.AdmitsAll ps ts)
    (ht : env.Resolves (.tuple ts)) : env.Admits (.compound (Ty.tuple ts).name ps) (.tuple ts) false := by
  rintro env' henv _ ⟨o, o', spec, es, rfl, hspec, hes⟩
  obtain ⟨xs, g, hxs, hvalues⟩ := h.checkFields henv hes
  have hlen : (NamedTy.ofTys ts).length = ts.length := by
    rw [← List.length_map NamedTy.ty, ← NamedTy.tys_eq_map, NamedTy.tys_ofTys]
  have hnamed : env'.structNamed o' spec es.length = .ok (NamedTy.ofTy (.tuple ts), NamedTy.ofTys ts) := by
    unfold structNamed
    rw [henv.resolves ht spec hspec]
    simp only [NamedTy.ofTy, bind, Except.bind, hspec.pointer, h.length_trees hes, hlen, ne_eq,
      not_true_eq_false, Bool.false_eq_true, if_false]
    rfl
  let made : Checked := { type := NamedTy.ofTy (.tuple ts), term := .record (xs.map (·.term)) }
  refine ⟨made, fun vars => g vars >>= fun vs => pure (.record vs), ?_, ⟨rfl, fun call f => ?_⟩, rfl, rfl⟩
  · rw [checkExpr, checkExpr, hnamed]
    simp only [bind, Except.bind, hxs]
    rfl
  · rw [Term.eval, hvalues]

/-! ### Operations -/

theorem Computes.unary (hp : env.Computes p s) (ht : Formula.unaryTy? op s = some t) (sign : Operator) :
    env.Computes (.unary sign op p) t := by
  rintro _ ⟨o, e, rfl, he⟩
  obtain ⟨x, g, hx, hmeans⟩ := hp e he
  rw [checkExpr, hx]
  by_cases hop : op = .not
  · subst hop
    obtain ⟨c, rfl, rfl⟩ : ∃ c, s = .scalar c ∧ t = .scalar .bool := by
      cases s with
      | scalar c =>
        cases ht
        exact ⟨c, rfl, rfl⟩
      | _ => cases ht
    obtain ⟨y, hy, hmeans'⟩ := hmeans.not e.offset
    exact ⟨y, _, hy, hmeans'⟩
  · obtain ⟨y, hy, hmeans'⟩ := hmeans.unary hop ht o
    refine ⟨y, _, ?_, hmeans'⟩
    have hsign : op = .sub ∨ op = .xor := by
      unfold Formula.unaryTy? at ht
      split at ht <;> simp_all
    rcases hsign with rfl | rfl <;> exact hy

theorem Computes.binary (hp : env.Computes p s) (hq : env.Computes q r) (hlog : op.isLogical = false)
    (ht : Formula.BinaryTyped op s r t) : env.Computes (.binary op p q) t := by
  rintro _ ⟨e, o, e', rfl, he, he'⟩
  obtain ⟨x, g, hx, hxmeans⟩ := hp e he
  obtain ⟨y, h, hy, hymeans⟩ := hq e' he'
  obtain ⟨common, hcommon⟩ := ht.exists_common
  obtain ⟨z, hz, hmeans⟩ := hxmeans.binary hymeans hlog ht hcommon o
  exact ⟨z, _, by rw [checkExpr, hx, hy]; exact hz, hmeans⟩

theorem Computes.truth {c : Scalar} (hp : env.Computes p (.scalar c)) {e : Code.Expr} (he : p.tree e) :
    ∃ test, env.checkTest e = .ok test := by
  obtain ⟨x, g, hx, hmeans⟩ := hp e he
  obtain ⟨y, hy, -⟩ := hmeans.truth e.offset
  refine ⟨y.term, ?_⟩
  rw [checkTest, hx]
  simp only [bind, Except.bind, hy]
  rfl

/-! ### Statements -/

/-- Statements after refused ones do not matter. -/
theorem checkStmts_error_append {ss₂ : List Code.Stmt} {c : Objection} :
    ∀ {ss₁ : List Code.Stmt} {env : Env}, env.checkStmts ss₁ = .error c →
      env.checkStmts (ss₁ ++ ss₂) = .error c
  | [], env, h => by
    rw [checkStmts] at h
    cases h
  | s :: ss₁, env, h => by
    rw [checkStmts] at h
    rw [List.cons_append, checkStmts]
    cases hs : env.checkStmt s with
    | error c' => rwa [hs] at h
    | ok r =>
      rw [hs] at h
      cases hss : r.2.checkStmts ss₁ with
      | error c' =>
        have hall : r.2.checkStmts (ss₁ ++ ss₂) = .error c' := checkStmts_error_append hss
        simp only [bind, Except.bind, hss, hall] at h ⊢
        exact h
      | ok r' =>
        simp only [bind, Except.bind, hss] at h
        cases h

/-- Statements before refused ones are not enough. -/
theorem checkStmts_append_error {ss₂ : List Code.Stmt} {env₁ : Env} {c : Objection} :
    ∀ {ss₁ : List Code.Stmt} {env : Env} {a : Action}, env.checkStmts ss₁ = .ok (a, env₁) →
      env₁.checkStmts ss₂ = .error c → env.checkStmts (ss₁ ++ ss₂) = .error c
  | [], env, a, h₁, h₂ => by
    rw [checkStmts] at h₁
    cases h₁
    exact h₂
  | s :: ss₁, env, a, h₁, h₂ => by
    rw [checkStmts] at h₁
    obtain ⟨⟨first, env'⟩, hfirst, h₁⟩ := bind_eq_ok.mp h₁
    obtain ⟨⟨rest, env''⟩, hrest, h₁⟩ := bind_eq_ok.mp h₁
    cases h₁
    rw [List.cons_append, checkStmts, hfirst]
    simp only [bind, Except.bind, checkStmts_append_error hrest h₂]

end Env

/-! ### Listings -/

namespace Listing

variable {env env₁ env₂ inner : Env} {k l body : Listing} {p q : Snippet} {s t : Ty} {x : String}

/-- The device accepts the listing, and knows `env'` after it. -/
def Accepted (env : Env) (l : Listing) (env' : Env) : Prop :=
  ∀ ss, l.Trees ss → ∃ a, env.checkStmts ss = .ok (a, env')

/-- The device refuses the listing. -/
def Refused (env : Env) (l : Listing) : Prop :=
  ∀ ss, l.Trees ss → ∃ c, env.checkStmts ss = .error c

theorem accepted_done (env : Env) : done.Accepted env env := by
  rintro _ rfl
  exact ⟨.skip, by rw [Env.checkStmts]⟩

theorem Accepted.append (hk : k.Accepted env env₁) (hl : l.Accepted env₁ env₂) :
    (k ++ l).Accepted env env₂ := by
  intro ss hss
  obtain ⟨ks, ls, rfl, hks, hls⟩ := hss.of_append
  obtain ⟨a, ha⟩ := hk ks hks
  obtain ⟨b, hb⟩ := hl ls hls
  obtain ⟨c, hc, -⟩ := Env.checkStmts_append ha hb
  exact ⟨c, hc⟩

theorem Refused.append_left (hk : k.Refused env) (l : Listing) : (k ++ l).Refused env := by
  intro ss hss
  obtain ⟨ks, ls, rfl, hks, -⟩ := hss.of_append
  obtain ⟨c, hc⟩ := hk ks hks
  exact ⟨c, Env.checkStmts_error_append hc⟩

theorem Accepted.refused (hk : k.Accepted env env₁) (hl : l.Refused env₁) : (k ++ l).Refused env := by
  intro ss hss
  obtain ⟨ks, ls, rfl, hks, hls⟩ := hss.of_append
  obtain ⟨a, ha⟩ := hk ks hks
  obtain ⟨c, hc⟩ := hl ls hls
  exact ⟨c, Env.checkStmts_append_error ha hc⟩

/-- A single statement. -/
theorem exists_checkStmts {st : Code.Stmt} {a : Action} (h : env.checkStmt st = .ok (a, env₁)) :
    ∃ b, env.checkStmts [st] = .ok (b, env₁) := by
  have hrest : env₁.checkStmts [] = .ok (.skip, env₁) := by rw [Env.checkStmts]
  rw [Env.checkStmts]
  exact ⟨.seq a .skip, bind_eq_ok.mpr ⟨(a, env₁), h, bind_eq_ok.mpr ⟨(.skip, env₁), hrest, rfl⟩⟩⟩

theorem checkStmts_error {st : Code.Stmt} {c : Objection} (h : env.checkStmt st = .error c) :
    env.checkStmts [st] = .error c := by
  rw [Env.checkStmts, h]
  rfl

/-- The declaration of a variable. -/
theorem accepted_declare {readOnly : Bool} (hfree : env.find? x = none)
    (ht : ∀ spec, Code.Scope.Says (qualifierTokens readOnly) t.name false spec →
      env.resolve spec = .ok (NamedTy.ofTy t)) (hvoid : t ≠ .void) (hp : env.Initializes p t) :
    (declare readOnly t x p .done).Accepted env (env.extend x t readOnly) := by
  rintro _ ⟨spec, o, e, _, rfl, hspec, he, rfl⟩
  obtain ⟨y, hy, hconvert⟩ := hp e he
  obtain ⟨z, hz⟩ := hconvert e.offset
  have hread : (spec.readOnly && !spec.pointer) = readOnly := by
    rw [hspec.readOnly, hspec.pointer]
    cases readOnly <;> rfl
  exact exists_checkStmts (Env.check_declaration hfree (ht spec hspec) hread hvoid hy hz o)

/-- An assignment to a place that can be changed. -/
theorem accepted_assign (hp : env.Admits p t true) (hq : env.Initializes q t) :
    (assign p q .done).Accepted env env := by
  rintro _ ⟨e, o, e', _, rfl, he, he', rfl⟩
  obtain ⟨x, g, hx, hmeans, hplace, hread⟩ := hp env (Env.grows_refl env) e he
  obtain ⟨y, hy, hconvert⟩ := hq e' he'
  obtain ⟨place, hplace⟩ := Option.isSome_iff_exists.mp hplace
  obtain ⟨z, hz⟩ := hconvert o
  rw [← hmeans.type] at hz
  exact exists_checkStmts (Env.check_assignment hx hplace hread hy hz)

/-- An assignment to what is no place. -/
theorem refused_assign (hp : env.Admits p t false) (q : Snippet) : (assign p q .done).Refused env := by
  rintro _ ⟨e, o, e', _, rfl, he, -, rfl⟩
  obtain ⟨x, g, hx, -, hplace, -⟩ := hp env (Env.grows_refl env) e he
  have hnone : x.place? = none := Option.not_isSome_iff_eq_none.mp (by rw [hplace]; decide)
  have hassign : Env.assignable o x = complain o .notAssignable := by
    unfold Env.assignable
    rw [hnone]
  cases hy : env.checkExpr e' with
  | error c =>
    refine ⟨c, checkStmts_error ?_⟩
    rw [Env.checkStmt, Env.checkSimple, hx, hy]
    rfl
  | ok y =>
    refine ⟨.complaint o .notAssignable, checkStmts_error ?_⟩
    rw [Env.checkStmt, Env.checkSimple, hx, hy]
    simp only [Env.binaryOf?, hassign, bind, Except.bind]
    rfl

theorem accepted_branch {c : Scalar} (hp : env.Computes p (.scalar c))
    (hbody : body.Accepted env.openScope.openScope inner) :
    (branch p body .done).Accepted env (env.closeTo inner) := by
  rintro _ ⟨o, e, o', bs, _, rfl, he, hbs, rfl⟩
  obtain ⟨test, htest⟩ := hp.truth he
  obtain ⟨a, ha⟩ := hbody bs hbs
  exact exists_checkStmts (Env.check_branch htest ha o o')

theorem refused_branch {c : Scalar} (hp : env.Computes p (.scalar c))
    (hbody : body.Refused env.openScope.openScope) : (branch p body .done).Refused env := by
  rintro _ ⟨o, e, o', bs, _, rfl, he, hbs, rfl⟩
  obtain ⟨test, htest⟩ := hp.truth he
  obtain ⟨d, hd⟩ := hbody bs hbs
  refine ⟨d, checkStmts_error ?_⟩
  rw [Env.checkStmt, htest]
  show (env.openScope.checkStmt (.block o' bs) >>= _) = _
  rw [Env.checkStmt, hd]
  rfl

end Listing
/-! ### Formulas -/

/-- The snippets of the placeholder are expressions for the device, and places where `keeps` says so. -/
def Referent.Stands (env : Env) (keeps : Formula → Bool) (σ : Referent) : Prop :=
  ∀ ⦃n : Formula⦄ ⦃t : Ty⦄ ⦃p : Snippet⦄, Formula.Locates σ n t p → env.Admits p t (keeps n)

theorem Referent.Stands.mono {σ : Referent} {env env' : Env} {keeps : Formula → Bool}
    (h : σ.Stands env keeps) (henv : env.Grows env') : σ.Stands env' keeps :=
  fun _ _ _ hp => (h hp).mono henv

namespace Formula

open Listing (accepted_declare accepted_assign accepted_branch refused_assign refused_branch)

variable {σ : Referent} {ns : Names} {n : Formula} {s t : Ty} {p init : Snippet} {e f : Emitted}
  {env env₁ env₂ : Env} {keeps : Formula → Bool} {stored : Bool} {op : Operator}

/-- A type that can be declared. -/
def Declarable (env : Env) (t : Ty) : Prop := t.isData = true ∧ env.Resolves t

theorem Declarable.mono (h : Declarable env t) (henv : env.Grows env₁) : Declarable env₁ t :=
  ⟨h.1, henv.resolves h.2⟩

theorem Declarable.ne_void (h : Declarable env t) : t ≠ .void := by
  rintro rfl
  cases h.1

/-! ### What is accepted -/

namespace Emitted

/-- The listing is accepted, and in the end its value is an expression. -/
structure Fine (env : Env) (e : Emitted) (t : Ty) (env' : Env) (stored : Bool) : Prop where
  listing : e.listing.Accepted env env'
  grows : env.Grows env'
  within : env'.Within e.names
  value : env'.Admits e.value t stored

theorem Fine.declare (hlisting : e.listing.Accepted env env₁) (hgrows : env.Grows env₁)
    (hwithin : env₁.Within e.names) (hinit : env₁.Initializes init t) (ht : Declarable env t) :
    (e.declare t init).Fine env t (env₁.extend (e.names.indexed "_v").1 t false) true where
  listing := hlisting.append
    (accepted_declare (hwithin.find?_indexed "_v") (ht.mono hgrows).2 ht.ne_void hinit)
  grows := hgrows.trans (Env.grows_extend (hwithin.find?_indexed "_v") t false)
  within := hwithin.extend t
  value := Env.admits_name (Env.find?_extend_self ..) rfl rfl

theorem computes_test {x : String} (hx : env.Computes (.name x) (.scalar .bool)) (op : Operator) :
    env.Computes (test op x) (.scalar .bool) := by
  unfold test
  split
  · exact hx.unary rfl .not
  · exact hx

section Guard

variable {a b : Scalar} (he : e.Fine env (.scalar a) env₁ stored)
  (hbool : Declarable env (.scalar .bool))

include he hbool

/-- The variable of `&&` and `||` holds the left operand. -/
theorem Fine.left : (e.declare (.scalar .bool) e.value).Fine env (.scalar .bool)
    (env₁.extend (e.names.indexed "_v").1 (.scalar .bool) false) true :=
  .declare he.listing he.grows he.within (he.value.computes.initializes (.scalar a .bool)) hbool

theorem Fine.guard (op : Operator) {stored' : Bool}
    (hf : f.Fine (env₁.extend (e.names.indexed "_v").1 (.scalar .bool) false).openScope.openScope
      (.scalar b) env₂ stored') :
    ∃ env', (e.guard op f).Fine env (.scalar .bool) env' true := by
  have hleft := he.left hbool
  have hlt := hf.grows.slots
  have hgrows := @Env.grows_closeTo (env₁.extend (e.names.indexed "_v").1 (.scalar .bool) false) _ hlt
  have hvalue : (env₁.extend (e.names.indexed "_v").1 (.scalar .bool) false).Admits
      (.name (e.names.indexed "_v").1) (.scalar .bool) true := hleft.value
  have hopened := (Env.grows_openScope _).trans ((Env.grows_openScope _).trans hf.grows)
  have hassign := accepted_assign (hvalue.mono hopened) (hf.value.computes.initializes (.scalar b .bool))
  have hbranch := accepted_branch (computes_test hvalue.computes op) (hf.listing.append hassign)
  refine ⟨_, hleft.listing.append hbranch, hleft.grows.trans hgrows, ⟨?_, ?_, hleft.within.clear⟩,
    hvalue.mono hgrows⟩
  · exact fun hfind => hf.within.named (hopened.finds hfind)
  · exact fun hfind => Nat.lt_of_lt_of_le (hleft.within.slotted hfind) hlt

/-- The right operand of `&&` and `||` is refused where the two are. -/
theorem Fine.refused_guard (op : Operator)
    (hf : (f.listing).Refused
      (env₁.extend (e.names.indexed "_v").1 (.scalar .bool) false).openScope.openScope) :
    (e.guard op f).listing.Refused env := by
  have hleft := he.left hbool
  have hvalue : (env₁.extend (e.names.indexed "_v").1 (.scalar .bool) false).Admits
      (.name (e.names.indexed "_v").1) (.scalar .bool) true := hleft.value
  exact hleft.listing.refused
    (refused_branch (computes_test hvalue.computes op) (hf.append_left _))

end Guard

end Emitted

/-- **What is written is accepted** if all places that are assigned to are kept. -/
theorem Emits.accepted (h : Emits σ ns n t e) : ∀ {env : Env}, env.Within ns → σ.Stands env keeps →
    (∀ u ∈ e.types, Declarable env u) → n.assigns keeps = true →
      ∃ env' stored, e.Fine env t env' stored := by
  induction h with
  | @arg ns i =>
    intro env hwithin hσ _ _
    exact ⟨env, keeps (.arg i), Listing.accepted_done env, env.grows_refl, hwithin, hσ .whole⟩
  | @field ns i index t p hp ht =>
    intro env hwithin hσ _ _
    exact ⟨env, keeps (.get index (.arg i)), Listing.accepted_done env, env.grows_refl, hwithin,
      hσ (.field hp ht)⟩
  | unary _ ht ih =>
    intro env hwithin hσ hknown hassigns
    obtain ⟨htypes, ht'⟩ := List.forall_mem_append.mp hknown
    obtain ⟨env₁, stored, hx⟩ := ih hwithin hσ htypes hassigns
    exact ⟨_, _, .declare hx.listing hx.grows hx.within
      ((hx.value.computes.unary ht _).initializes (.same _)) (ht' _ List.mem_cons_self)⟩
  | binary _ _ hlog ht ihx ihy =>
    intro env hwithin hσ hknown hassigns
    obtain ⟨htypes, ht'⟩ := List.forall_mem_append.mp hknown
    obtain ⟨hxtypes, hytypes⟩ := List.forall_mem_append.mp htypes
    rw [assigns, Bool.and_eq_true] at hassigns
    obtain ⟨env₁, stored, hx⟩ := ihx hwithin hσ hxtypes hassigns.1
    obtain ⟨env₂, stored', hy⟩ := ihy hx.within (hσ.mono hx.grows)
      (fun u hu => (hytypes u hu).mono hx.grows) hassigns.2
    have hinit := (hx.value.mono hy.grows).computes.binary hy.value.computes hlog ht
    exact ⟨_, _, .declare (hx.listing.append hy.listing) (hx.grows.trans hy.grows) hy.within
      (hinit.initializes (.same _)) (ht' _ List.mem_cons_self)⟩
  | logical _ _ _ ihx ihy =>
    intro env hwithin hσ hknown hassigns
    obtain ⟨htypes, hytypes⟩ := List.forall_mem_append.mp hknown
    obtain ⟨hxtypes, hbool⟩ := List.forall_mem_append.mp htypes
    have hbool := hbool _ List.mem_cons_self
    rw [assigns, Bool.and_eq_true] at hassigns
    obtain ⟨env₁, stored, hx⟩ := ihx hwithin hσ hxtypes hassigns.1
    have hleft := hx.left hbool
    have hgrows := hleft.grows.trans ((Env.grows_openScope _).trans (Env.grows_openScope _))
    obtain ⟨env₂, stored', hy⟩ := ihy hleft.within.openScope.openScope (hσ.mono hgrows)
      (fun u hu => (hytypes u hu).mono hgrows) hassigns.2
    obtain ⟨env', hguard⟩ := hx.guard hbool _ hy
    exact ⟨env', _, hguard⟩
  | get _ ht ih =>
    intro env hwithin hσ hknown hassigns
    obtain ⟨htypes, ht'⟩ := List.forall_mem_append.mp hknown
    obtain ⟨env₁, stored, hx⟩ := ih hwithin hσ htypes hassigns
    exact ⟨_, _, .declare hx.listing hx.grows hx.within
      ((hx.value.select ht).computes.initializes (.same _)) (ht' _ List.mem_cons_self)⟩
  | set _ hl _ hstore ih =>
    intro env hwithin hσ hknown hassigns
    rw [assigns, Bool.and_eq_true] at hassigns
    obtain ⟨env₁, stored, hx⟩ := ih hwithin hσ hknown hassigns.1
    have hplace := (hσ hl).mono hx.grows
    rw [hassigns.2] at hplace
    exact ⟨env₁, true, hx.listing.append
      (accepted_assign hplace (hx.value.computes.initializes (Ty.converts_of_storableAs hstore))),
      hx.grows, hx.within, hplace⟩

/-- **What is written is refused** if one of the places that are assigned to is not kept. -/
theorem Emits.refused (h : Emits σ ns n t e) : ∀ {env : Env}, env.Within ns → σ.Stands env keeps →
    (∀ u ∈ e.types, Declarable env u) → n.assigns keeps = false → e.listing.Refused env := by
  induction h with
  | arg | field =>
    intro env _ _ _ hassigns
    cases hassigns
  | unary _ _ ih | get _ _ ih =>
    intro env hwithin hσ hknown hassigns
    exact (ih hwithin hσ (List.forall_mem_append.mp hknown).1 hassigns).append_left _
  | @binary ns op x y s r t e f hx hy hlog ht ihx ihy =>
    intro env hwithin hσ hknown hassigns
    obtain ⟨hxtypes, hytypes⟩ := List.forall_mem_append.mp (List.forall_mem_append.mp hknown).1
    refine Listing.Refused.append_left ?_ _
    rw [assigns] at hassigns
    cases hxassigns : x.assigns keeps with
    | false => exact (ihx hwithin hσ hxtypes hxassigns).append_left _
    | true =>
      rw [hxassigns, Bool.true_and] at hassigns
      obtain ⟨env₁, stored, hx⟩ := hx.accepted hwithin hσ hxtypes hxassigns
      exact hx.listing.refused (ihy hx.within (hσ.mono hx.grows)
        (fun u hu => (hytypes u hu).mono hx.grows) hassigns)
  | @logical ns op x y a b e f hlog hx hy ihx ihy =>
    intro env hwithin hσ hknown hassigns
    obtain ⟨htypes, hytypes⟩ := List.forall_mem_append.mp hknown
    obtain ⟨hxtypes, hbool⟩ := List.forall_mem_append.mp htypes
    have hbool := hbool _ List.mem_cons_self
    rw [assigns] at hassigns
    cases hxassigns : x.assigns keeps with
    | false => exact ((ihx hwithin hσ hxtypes hxassigns).append_left _).append_left _
    | true =>
      rw [hxassigns, Bool.true_and] at hassigns
      obtain ⟨env₁, stored, hx⟩ := hx.accepted hwithin hσ hxtypes hxassigns
      have hleft := hx.left hbool
      have hgrows := hleft.grows.trans ((Env.grows_openScope _).trans (Env.grows_openScope _))
      exact hx.refused_guard hbool op (ihy hleft.within.openScope.openScope (hσ.mono hgrows)
        (fun u hu => (hytypes u hu).mono hgrows) hassigns)
  | @set ns lhs rhs s r p e hr hl hwhole hstore ih =>
    intro env hwithin hσ hknown hassigns
    rw [assigns] at hassigns
    cases hrassigns : rhs.assigns keeps with
    | false => exact (ih hwithin hσ hknown hrassigns).append_left _
    | true =>
      rw [hrassigns, Bool.true_and] at hassigns
      obtain ⟨env₁, stored, hx⟩ := hr.accepted hwithin hσ hknown hrassigns
      have hplace := (hσ hl).mono hx.grows
      rw [hassigns] at hplace
      exact hx.listing.refused (refused_assign hplace _)

end Formula
end KernelForge
