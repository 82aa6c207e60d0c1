/-
Values that are bound to arguments.

An argument takes a value of exactly its type, and that is all that is looked at: the value
itself is written without a check, so what a kernel sees is its residue.  Whatever is refused is
refused before anything is set, and what is accepted changes one argument.
-/
import KernelForge.Device.Compile
import KernelForge.Proofs.Device.Acts
import KernelForge.Proofs.Host.Residues

namespace KernelForge

/-- The bytes of a value as an argument: they are as many as its type has, its residue is read
from them, and it comes back itself exactly if its native integers fit and its hidden fields
are zero. -/
structure Host.Renders (t : Ty) (h : HostTy) (v : HostValue) (bytes : Bytes) : Prop where
  size_eq : bytes.size = t.size
  decoded : decode t bytes h = .ok (h.residue v)
  exact_iff : decode t bytes h = .ok v ↔ h.admits v = true ∧ h.shown v = v

theorem Host.exists_renders {h : HostTy} {t : Ty} {v : HostValue} (hk : h.kernelTy = .ok t)
    (hv : h.holds v = true) :
    ∃ bytes, encode t h v (Array.replicate t.size 0) = .ok bytes ∧ Renders t h v bytes := by
  obtain ⟨bytes, henc, hsize, hdec⟩ := decode_encode_residue hk hv
  refine ⟨bytes, henc, hsize, hdec, ?_⟩
  rw [hdec, Except.ok.injEq]
  exact HostTy.residue_eq_self_iff hk hv

/-- No host type stands for a buffer. -/
theorem HostTy.kernelTy_ne_pointer (h : HostTy) (t : Ty) (space : Space) (readOnly : Bool) :
    h.kernelTy ≠ .ok (.pointer t space readOnly) := by
  intro hk
  cases h with
  | int w => cases w <;> cases hk
  | uint w => cases w <;> cases hk
  | array n elem =>
    obtain ⟨s, w, -, -, hno⟩ := kernelTy_array hk
    cases hno
  | struct fs =>
    obtain ⟨ts, -, -, hno⟩ := kernelTy_struct hk
    cases hno
  | _ => cases hk

/-! ### Arguments of a draft -/

namespace Draft

theorem args_fresh (d : Draft) (root : String) : (d.fresh root).2.part.args = d.part.args := by
  unfold fresh withNames
  split <;> rfl

/-- A value of a kernel type becomes the last argument of the draft. -/
theorem addSetArg_of_kernelTy {h : HostTy} {t : Ty} {v : HostValue} (hk : h.kernelTy = .ok t)
    (hv : h.holds v = true) (d : Draft) (name : String) :
    ∃ free bytes d', d.addSetArg name (some h) v = .ok ((free, d.part.args.length), d') ∧
      d'.part.args = d.part.args ++ [{ name := free, type := t, value? := some bytes }] ∧
      Host.Renders t h v bytes := by
  obtain ⟨bytes, henc, hbytes⟩ := Host.exists_renders hk hv
  refine ⟨(d.fresh name).1, bytes, (((d.fresh name).2.inject t).pushArg
    { name := (d.fresh name).1, type := t, value? := some bytes }).2, ?_, ?_, hbytes⟩
  · unfold addSetArg
    simp only [HostTy.kernelTyOf, hk, henc, pushArg, inject, args_fresh]
  · simp only [pushArg, inject, args_fresh]

theorem addSetArg_of_error {h : HostTy} {e : HostTypeError} (hk : h.kernelTy = .error e) (d : Draft)
    (name : String) (v : HostValue) : d.addSetArg name (some h) v = .error e.message := by
  unfold addSetArg
  simp only [HostTy.kernelTyOf, hk]

end Draft

/-! ### Arguments of a kernel -/

namespace Machine

open Act

variable {m : Machine} {kernel : Nat} {kn : Kernel}

/-- Setting an argument changes that argument or nothing. -/
theorem setArg_eq_or (hfound : m.kernels[kernel]? = some (.ok kn)) (slot : Int) (bytes : List UInt8) :
    setArg kernel slot bytes m = putArg kernel slot { bytes } m ∨
      ∃ f, setArg kernel slot bytes m = (.error f, m) := by
  have hget : m.kernels.getD kernel (.error "") = .ok kn := by simp [Array.getD_eq_getD_getElem?, hfound]
  unfold setArg
  rw [bind_ok (x := get) rfl]
  simp only [hget]
  unfold param
  split
  · rename_i p _
    obtain ⟨name, t⟩ := p
    rw [bind_ok (x := pure _) rfl]
    cases t with
    | pointer elem space readOnly => exact .inr ⟨_, rfl⟩
    | _ =>
      dsimp only
      split
      · exact .inr ⟨_, rfl⟩
      · exact .inl rfl
  · exact .inr ⟨_, rfl⟩

/-- An argument takes bytes as many as its type has. -/
theorem setArg_eq_putArg (hfound : m.kernels[kernel]? = some (.ok kn)) {slot : Int} {name : String}
    {t : Ty} {bytes : List UInt8} (hslot : 0 ≤ slot) (hparam : kn.fn.params[slot.toNat]? = some (name, t))
    (ht : ∀ elem space readOnly, t ≠ .pointer elem space readOnly) (hlen : bytes.length = t.size) :
    setArg kernel slot bytes m = putArg kernel slot { bytes } m := by
  have hget : m.kernels.getD kernel (.error "") = .ok kn := by simp [Array.getD_eq_getD_getElem?, hfound]
  have hfn : param kn slot = pure (name, t) := by rw [param, if_neg (by omega), hparam]
  unfold setArg
  rw [bind_ok (x := get) rfl]
  simp only [hget]
  rw [hfn, bind_ok (x := pure _) rfl]
  dsimp only
  split
  · rename_i elem space readOnly
    exact absurd rfl (ht elem space readOnly)
  · rw [if_neg (by omega)]

variable {k : CompiledKernel} {slot : Int} {h : HostTy} {v : HostValue}

/-- A value of the type of an argument is bound as its bytes. -/
theorem bind_eq_setArg {a : DraftArg} (harg : k.arg? slot = some a) (hk : h.kernelTy = .ok a.type)
    (hv : h.holds v = true) (m : Machine) : ∃ bytes, Host.Renders a.type h v bytes ∧
      bind k slot (.host (some h) v) m = setArg k.kernel slot bytes.toList m := by
  obtain ⟨bytes, henc, hbytes⟩ := Host.exists_renders hk hv
  have hbuffer : a.isBuffer = false := by
    unfold DraftArg.isBuffer
    split
    · rename_i t space readOnly ht
      exact absurd (ht ▸ hk) (h.kernelTy_ne_pointer t space readOnly)
    · rfl
  refine ⟨bytes, hbytes, ?_⟩
  unfold bind
  have htype : ¬ (a.isBuffer || decide (a.type ≠ a.type)) = true := by simp [hbuffer]
  simp only [harg, HostTy.kernelTyOf, hk, if_neg htype, henc]

theorem bind_refused (hno : ∀ a, k.arg? slot = some a → h.kernelTy ≠ .ok a.type) (m : Machine) :
    ∃ f, bind k slot (.host (some h) v) m = (.error f, m) := by
  unfold bind
  cases harg : k.arg? slot with
  | none => exact ⟨_, rfl⟩
  | some a =>
    cases hk : h.kernelTy with
    | error e =>
      simp only [HostTy.kernelTyOf, hk]
      exact ⟨_, rfl⟩
    | ok t =>
      have ht : (a.isBuffer || decide (t ≠ a.type)) = true := by
        have hne : t ≠ a.type := fun heq => hno a harg (heq ▸ hk)
        simp [hne]
      simp only [HostTy.kernelTyOf, hk, ht]
      exact ⟨_, rfl⟩

/-! ### Exactly what survives -/

/-- **A value is bound unchanged exactly if the device can hold it.**  Presetting an argument and
binding one both take a value for its type alone.  What is refused is refused before anything
has been set; what is accepted sets one argument, to bytes from which the residue of the value
is read.  So the value itself comes back if and only if its native integers fit 32 bits and its
hidden fields are zero. -/
theorem bound_value_iff {h : HostTy} {v : HostValue} (hv : h.holds v = true) :
    (∀ (d : Draft) (name : String),
      (∀ e, h.kernelTy = .error e → d.addSetArg name (some h) v = .error e.message) ∧
      ∀ t, h.kernelTy = .ok t → ∃ free bytes d',
        d.addSetArg name (some h) v = .ok ((free, d.part.args.length), d') ∧
        d'.part.args = d.part.args ++ [{ name := free, type := t, value? := some bytes }] ∧
        Host.Renders t h v bytes) ∧
    ∀ (m : Machine) (k : CompiledKernel) (kn : Kernel) (slot : Int),
      m.kernels[k.kernel]? = some (.ok kn) →
      ((∃ f, bind k slot (.host (some h) v) m = (.error f, m)) ∨
        ∃ a bytes, k.arg? slot = some a ∧ h.kernelTy = .ok a.type ∧ Host.Renders a.type h v bytes ∧
          bind k slot (.host (some h) v) m = putArg k.kernel slot { bytes := bytes.toList } m) ∧
      ∀ a, k.arg? slot = some a → kn.fn.params[slot.toNat]? = some (a.name, a.type) →
        (h.kernelTy = .ok a.type ↔ ∃ m', bind k slot (.host (some h) v) m = (.ok (), m')) := by
  refine ⟨fun d name => ⟨fun e hk => Draft.addSetArg_of_error hk d name v,
    fun t hk => Draft.addSetArg_of_kernelTy hk hv d name⟩, fun m k kn slot hfound => ⟨?_, ?_⟩⟩
  · by_cases hno : ∀ a, k.arg? slot = some a → h.kernelTy ≠ .ok a.type
    · exact .inl (bind_refused hno m)
    · push Not at hno
      obtain ⟨a, harg, hk⟩ := hno
      obtain ⟨bytes, hbytes, hbind⟩ := bind_eq_setArg harg hk hv m
      rw [hbind]
      rcases setArg_eq_or hfound slot bytes.toList with hset | hset
      · exact .inr ⟨a, bytes, harg, hk, hbytes, hset⟩
      · exact .inl hset
  · intro a harg hparam
    constructor
    · intro hk
      obtain ⟨bytes, hbytes, hbind⟩ := bind_eq_setArg harg hk hv m
      have hslot : 0 ≤ slot := by
        by_contra hneg
        rw [CompiledKernel.arg?, if_pos (by omega)] at harg
        cases harg
      rw [hbind, setArg_eq_putArg hfound hslot hparam
        (fun t space readOnly ht => h.kernelTy_ne_pointer t space readOnly (ht ▸ hk))
        (by simpa using hbytes.size_eq)]
      exact ⟨_, rfl⟩
    · rintro ⟨m', hok⟩
      by_contra hne
      obtain ⟨f, hf⟩ := bind_refused (v := v) (fun b hb => by rw [harg] at hb; cases hb; exact hne) m
      rw [hf] at hok
      cases hok

/-- A structure with a native integer that does not fit is bound as its residue. -/
theorem cut_value_bound :
    let h : HostTy := .struct [(false, .int .native), (false, .float32)]
    let t : Ty := .tuple [.scalar .int, .scalar .float]
    let v : HostValue := .list [.int 4294967301, .float32 ⟨0x3f800000⟩]
    let k : CompiledKernel := { kernel := 0, name := "k", args := [{ name := "p", type := t }] }
    let kn : Kernel :=
      { program := 0
        fn := { name := "k", isKernel := true, result := .void, params := [("p", t)], slots := 1, body := .skip }
        args := [none] }
    let m : Machine := { kernels := #[.ok kn] }
    h.holds v = true ∧ m.kernels[k.kernel]? = some (.ok kn) ∧
      ∃ bytes, bind k 0 (.host (some h) v) m = putArg 0 0 { bytes := bytes.toList } m ∧
        Host.decode t bytes h = .ok (.list [.int 5, .float32 ⟨0x3f800000⟩]) ∧
        Host.decode t bytes h ≠ .ok v := by
  intro h t v k kn m
  have hv : h.holds v = true := by decide
  obtain ⟨hor, haccepts⟩ := (bound_value_iff hv).2 m k kn 0 rfl
  obtain ⟨m', hok⟩ := (haccepts { name := "p", type := t } rfl rfl).1 rfl
  obtain ⟨f, hf⟩ | ⟨a, bytes, harg, -, hbytes, hbind⟩ := hor
  · rw [hf] at hok
    cases hok
  · cases harg
    refine ⟨hv, rfl, bytes, hbind, hbytes.decoded, fun hsame => ?_⟩
    exact absurd (hbytes.exact_iff.1 hsame).1 (by decide)

end Machine
end KernelForge
