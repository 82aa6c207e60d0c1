/-
What an action of the machine comes to.

An action ends with a result or with a fault, and leaves a machine either way.  Both are said
from one machine on, with what is to hold afterwards: `Gives` of the result and the machine,
`Throws` of the fault and the machine.  A sequence of actions is then taken apart action by
action, and nobody has to name the machines in between.  `ComesTo` leaves open how an action ends.
-/
import KernelForge.Device.Machine

namespace KernelForge.Act

variable {α β : Type} {x : Act α} {m : Machine}

/-- The action succeeds, and what it gives and leaves satisfies `Q`. -/
def Gives (x : Act α) (m : Machine) (Q : α → Machine → Prop) : Prop :=
  ∃ a m', x m = (.ok a, m') ∧ Q a m'

/-- The action fails, and its fault and what it leaves satisfy `Q`. -/
def Throws (x : Act α) (m : Machine) (Q : Fault → Machine → Prop) : Prop :=
  ∃ f m', x m = (.error f, m') ∧ Q f m'

/-! ### Results -/

theorem Gives.mono {P Q : α → Machine → Prop} (h : Gives x m P) (hPQ : ∀ a m', P a m' → Q a m') :
    Gives x m Q := by
  obtain ⟨a, m', hx, hP⟩ := h
  exact ⟨a, m', hx, hPQ a m' hP⟩

theorem gives_pure {a : α} {Q : α → Machine → Prop} (h : Q a m) : Gives (pure a) m Q :=
  ⟨a, m, rfl, h⟩

theorem gives_modify {f : Machine → Machine} {Q : Unit → Machine → Prop} (h : Q () (f m)) :
    Gives (modify f) m Q := ⟨(), f m, rfl, h⟩

theorem gives_modifyGet {f : Machine → α × Machine} {Q : α → Machine → Prop}
    (h : Q (f m).1 (f m).2) : Gives (modifyGet f) m Q := ⟨(f m).1, (f m).2, rfl, h⟩

theorem gives_ofExcept {r : Except Fault α} {a : α} {Q : α → Machine → Prop} (hr : r = .ok a)
    (h : Q a m) : Gives (ofExcept r) m Q := by
  subst hr
  exact gives_pure h

/-! ### Sequences -/

theorem bind_ok {a : α} {m' : Machine} (h : x m = (.ok a, m')) (f : α → Act β) :
    (x >>= f) m = f a m' := by
  show (match x m with | (r, m') => (ExceptT.bindCont f r) m') = f a m'
  rw [h]
  rfl

theorem bind_error {c : Fault} {m' : Machine} (h : x m = (.error c, m')) (f : α → Act β) :
    (x >>= f) m = (.error c, m') := by
  show (match x m with | (r, m') => (ExceptT.bindCont f r) m') = _
  rw [h]
  rfl

theorem map_ok {a : α} {m' : Machine} (h : x m = (.ok a, m')) (f : α → β) :
    (f <$> x) m = (.ok (f a), m') := bind_ok h (pure ∘ f)

theorem map_error {c : Fault} {m' : Machine} (h : x m = (.error c, m')) (f : α → β) :
    (f <$> x) m = (.error c, m') := bind_error h (pure ∘ f)

theorem Gives.bind {f : α → Act β} {P : α → Machine → Prop} {Q : β → Machine → Prop}
    (hx : Gives x m P) (hf : ∀ a m', P a m' → Gives (f a) m' Q) : Gives (x >>= f) m Q := by
  obtain ⟨a, m', hx, hP⟩ := hx
  obtain ⟨b, m'', hb, hQ⟩ := hf a m' hP
  exact ⟨b, m'', (bind_ok hx f).trans hb, hQ⟩

theorem Gives.bind_throws {f : α → Act β} {P : α → Machine → Prop} {Q : Fault → Machine → Prop}
    (hx : Gives x m P) (hf : ∀ a m', P a m' → Throws (f a) m' Q) : Throws (x >>= f) m Q := by
  obtain ⟨a, m', hx, hP⟩ := hx
  obtain ⟨c, m'', hc, hQ⟩ := hf a m' hP
  exact ⟨c, m'', (bind_ok hx f).trans hc, hQ⟩

theorem Throws.bind {f : α → Act β} {Q : Fault → Machine → Prop} (hx : Throws x m Q) :
    Throws (x >>= f) m Q := by
  obtain ⟨c, m', hx, hQ⟩ := hx
  exact ⟨c, m', bind_error hx f, hQ⟩

/-! Sequences that start with a step that cannot fail. -/

section

variable {Q : β → Machine → Prop}

theorem gives_get_bind {f : Machine → Act β} (h : Gives (f m) m Q) : Gives (get >>= f) m Q := h

theorem gives_modify_bind {g : Machine → Machine} {f : Unit → Act β} (h : Gives (f ()) (g m) Q) :
    Gives (modify g >>= f) m Q := h

theorem gives_modifyGet_bind {g : Machine → α × Machine} {f : α → Act β}
    (h : Gives (f (g m).1) (g m).2 Q) : Gives (modifyGet g >>= f) m Q := h

theorem gives_pure_bind {a : α} {f : α → Act β} (h : Gives (f a) m Q) :
    Gives (pure a >>= f) m Q := h

theorem gives_ofExcept_bind {r : Except Fault α} {a : α} {f : α → Act β} (hr : r = .ok a)
    (h : Gives (f a) m Q) : Gives (ofExcept r >>= f) m Q := by
  subst hr
  exact h

end

/-! ### Faults that are caught -/

theorem tryCatch_eq (x : Act α) (handle : Fault → Act α) (m : Machine) :
    tryCatch x handle m =
      match x m with
      | (.ok a, m') => (.ok a, m')
      | (.error f, m') => handle f m' := by
  have hbind : ∀ g : Except Fault α → StateM Machine (Except Fault α),
      (bind (m := StateM Machine) x g) m = g (x m).1 (x m).2 := fun _ => rfl
  simp only [tryCatch, tryCatchThe, MonadExceptOf.tryCatch, ExceptT.tryCatch, ExceptT.mk]
  rw [hbind]
  rcases x m with ⟨r, m'⟩
  cases r <;> rfl

theorem Gives.guarded {Q : α → Machine → Prop} (hx : Gives x m Q) (handle : Fault → Act α) :
    Gives (tryCatch x handle) m Q := by
  obtain ⟨a, m', hx, hQ⟩ := hx
  exact ⟨a, m', by rw [tryCatch_eq, hx], hQ⟩

theorem Throws.caught {handle : Fault → Act α} {P : Fault → Machine → Prop}
    {Q : α → Machine → Prop} (hx : Throws x m P)
    (hhandle : ∀ f m', P f m' → Gives (handle f) m' Q) : Gives (tryCatch x handle) m Q := by
  obtain ⟨c, m', hx, hP⟩ := hx
  obtain ⟨a, m'', ha, hQ⟩ := hhandle c m' hP
  exact ⟨a, m'', by rw [tryCatch_eq, hx]; exact ha, hQ⟩

theorem Throws.rethrown {handle : Fault → Act α} {P Q : Fault → Machine → Prop}
    (hx : Throws x m P) (hhandle : ∀ f m', P f m' → Throws (handle f) m' Q) :
    Throws (tryCatch x handle) m Q := by
  obtain ⟨c, m', hx, hP⟩ := hx
  obtain ⟨f, m'', hf, hQ⟩ := hhandle c m' hP
  exact ⟨f, m'', by rw [tryCatch_eq, hx]; exact hf, hQ⟩

theorem throws_throw {c : Fault} {Q : Fault → Machine → Prop} (h : Q c m) :
    Throws (throw c : Act α) m Q := ⟨c, m, rfl, h⟩

theorem Gives.within {Q : α → Machine → Prop} (hx : Gives x m Q) (context : String) :
    Gives (within context x) m Q := hx.guarded _

/-! ### Actions that may fail -/

/-- The action succeeds, and what it gives and leaves satisfies `P`, or it fails, and what it leaves
satisfies `E`. -/
def ComesTo (x : Act α) (m : Machine) (P : α → Machine → Prop) (E : Machine → Prop) : Prop :=
  Gives x m P ∨ Throws x m fun _ => E

section

variable {P P' : α → Machine → Prop} {Q : β → Machine → Prop} {E E' : Machine → Prop}

theorem ComesTo.mono (h : ComesTo x m P E) (hP : ∀ a m', P a m' → P' a m') (hE : ∀ m', E m' → E' m') :
    ComesTo x m P' E' := by
  rcases h with h | ⟨f, m', hx, h⟩
  · exact .inl (h.mono hP)
  · exact .inr ⟨f, m', hx, hE m' h⟩

theorem ComesTo.andThen {f : α → Act β} (hx : ComesTo x m P E) (hE : ∀ m', E m' → E' m')
    (hf : ∀ a m', P a m' → ComesTo (f a) m' Q E') : ComesTo (x >>= f) m Q E' := by
  rcases hx with ⟨a, m', hx, hP⟩ | ⟨c, m', hx, h⟩
  · have hgives : Gives x m fun b m₁ => b = a ∧ m₁ = m' := ⟨a, m', hx, rfl, rfl⟩
    rcases hf a m' hP with h | h
    · exact .inl (hgives.bind fun _ _ hab => by rw [hab.1, hab.2]; exact h)
    · exact .inr (hgives.bind_throws fun _ _ hab => by rw [hab.1, hab.2]; exact h)
  · exact .inr (Throws.bind ⟨c, m', hx, hE m' h⟩)

theorem ComesTo.bind {f : α → Act β} (hx : ComesTo x m P E)
    (hf : ∀ a m', P a m' → ComesTo (f a) m' Q E) : ComesTo (x >>= f) m Q E := hx.andThen (fun _ h => h) hf

/-- What is done about a fault. -/
theorem ComesTo.caught {handle : Fault → Act α} (hx : ComesTo x m P E)
    (hhandle : ∀ f m', E m' → ComesTo (handle f) m' P E') : ComesTo (tryCatch x handle) m P E' := by
  rcases hx with hx | ⟨f, m', hx, hE⟩
  · exact .inl (hx.guarded _)
  · have hthrows : Throws x m fun g m₁ => g = f ∧ m₁ = m' := ⟨f, m', hx, rfl, rfl⟩
    rcases hhandle f m' hE with h | h
    · exact .inl (hthrows.caught fun _ _ hab => by rw [hab.1, hab.2]; exact h)
    · exact .inr (hthrows.rethrown fun _ _ hab => by rw [hab.1, hab.2]; exact h)

theorem comesTo_pure {a : α} (h : P a m) : ComesTo (pure a) m P E := .inl (gives_pure h)

theorem comesTo_throw {f : Fault} (h : E m) : ComesTo (throw f : Act α) m P E := .inr (throws_throw h)

theorem comesTo_fail {text : String} (h : E m) : ComesTo (fail text : Act α) m P E := comesTo_throw h

theorem ComesTo.within (hx : ComesTo x m P E) (context : String) : ComesTo (within context x) m P E :=
  hx.caught fun _ _ hE => comesTo_throw hE

theorem comesTo_get_bind {f : Machine → Act β} (h : ComesTo (f m) m Q E) : ComesTo (get >>= f) m Q E := h

theorem ComesTo.state (h : ComesTo x m (fun _ => E) E) : E (x m).2 := by
  rcases h with ⟨a, m', hx, h⟩ | ⟨f, m', hx, h⟩ <;> rw [hx] <;> exact h

end

end KernelForge.Act
