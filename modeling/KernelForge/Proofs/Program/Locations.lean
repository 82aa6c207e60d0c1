/-
Locations are lenses.

A location is a variable or an element in memory, or a part of one: a field of a structure, or some
lanes of a vector.  A store to a part reads the whole, replaces the part and stores the whole, so the
laws of a lens are proved by induction on the way to the part.  What carries the induction is that the
whole is a well-formed value before the store and after it.  In memory the laws come from the codec: a
well-formed value that is written is read back, and bytes that were read are written back as they were.

Lanes of lanes are lanes of the vector, so what a store leaves alone is told with flat locations, which
have no lanes of lanes.
-/
import KernelForge.Proofs.Program.Ranges
import KernelForge.Proofs.Program.Traces

namespace KernelForge

/-! ### Lanes that are selected and set -/

namespace Lanes

variable {e : Elem} {x y z : Lanes e} {is : List Nat}

theorem ext_cells (hrow : x.row? = y.row?) (hcells : x.cells = y.cells) : x = y := by
  cases x <;> cases y <;> simp_all [cells]

/-- Some lanes of a value are the cells of another, one by one. -/
def Shows (x : Lanes e) (is : List Nat) (y : Lanes e) : Prop :=
  is.map (x.cells[·]?) = y.cells.map some

theorem Shows.cells_eq (h : x.Shows is y) (h' : x.Shows is z) : y.cells = z.cells :=
  List.map_injective_iff.mpr (Option.some_injective _) (h.symm.trans h')

/-- A value is known by some of its lanes and the others. -/
theorem cells_eq_of_shows {w : Lanes e} (hx : x.Shows is z) (hy : y.Shows is z)
    (hkept : ∀ j, j ∉ is → x.cells[j]? = w.cells[j]?)
    (hkept' : ∀ j, j ∉ is → y.cells[j]? = w.cells[j]?) :
    x.cells = y.cells := by
  refine List.ext_getElem? fun j => ?_
  by_cases hj : j ∈ is
  · exact List.map_inj_left.mp (hx.trans hy.symm) j hj
  · rw [hkept j hj, hkept' j hj]

theorem cells_lane {i : Nat} (h : x.lane i = .ok y) : ∃ c, y = atom c ∧ x.cells[i]? = some c := by
  unfold lane at h
  rw [if_neg (by omega), Int.toNat_natCast] at h
  split at h
  · rename_i c hc
    cases h
    exact ⟨c, rfl, hc⟩
  · cases h

theorem cells_setLane {i : Nat} {c : e.Cell} {cs : List e.Cell} (h : (row cs).setLane i (atom c) = .ok z) :
    z = row (cs.set i c) ∧ i < cs.length := by
  unfold setLane at h
  split at h
  · cases h
  · rename_i hi
    cases h
    exact ⟨by rw [Int.toNat_natCast], by simp only [cells] at hi; omega⟩

end Lanes

namespace Value

open Lanes

variable {e : Elem} {x y z : Lanes e} {n : Nat} {is : List Nat}

theorem shows_mapM : ∀ {is : List Nat} {ys : List (Lanes e)},
    (is.mapM fun i : Nat => x.lane i) = .ok ys → is.map (x.cells[·]?) = (ys.flatMap cells).map some
  | [], ys, h => by
    cases h
    rfl
  | i :: is, ys, h => by
    rw [List.mapM_cons] at h
    obtain ⟨y, hy, h⟩ := bind_eq_ok.mp h
    obtain ⟨ys, hys, h⟩ := bind_eq_ok.mp h
    cases h
    obtain ⟨c, rfl, hc⟩ := cells_lane hy
    rw [List.map_cons, hc, shows_mapM hys, List.flatMap_cons]
    rfl

theorem shows_selectLanes (hn : is ≠ []) (h : selectLanes x is = .ok y) : x.Shows is y := by
  unfold selectLanes at h
  split at h
  · obtain ⟨c, rfl, hc⟩ := cells_lane h
    rw [Shows, List.map_singleton, hc]
    rfl
  · rename_i hone
    obtain ⟨ys, hys, h⟩ := bind_eq_ok.mp h
    have hshow := shows_mapM hys
    have hlen := congrArg List.length hshow
    rw [List.length_map, List.length_map] at hlen
    unfold Lanes.concat at h
    generalize ys.flatMap cells = cs at h hshow hlen
    match cs, hlen with
    | [], hlen => exact absurd (List.length_eq_zero_iff.mp hlen) hn
    | [c], hlen =>
      obtain ⟨i, rfl⟩ := List.length_eq_one_iff.mp hlen
      exact absurd rfl (hone i)
    | c :: d :: cs, hlen =>
      rw [if_pos hlen.symm] at h
      cases h
      exact hshow

/-- Lanes that are set one after another; `k` is the number of those set before. -/
theorem foldlM_setLane_cells : ∀ {is : List Nat} {k : Nat} {cs : List e.Cell} {z : Lanes e},
    (is.zipIdx k).foldlM (fun x p => do x.setLane (p.1 : Nat) (← y.lane (p.2 : Nat))) (row cs) = .ok z →
    ∃ ds, z = row ds ∧ ds.length = cs.length ∧ (∀ j, j ∉ is → ds[j]? = cs[j]?) ∧
      (is.Nodup → is.map (ds[·]?) = ((y.cells.drop k).take is.length).map some)
  | [], k, cs, z, h => by
    cases h
    exact ⟨cs, rfl, rfl, fun _ _ => rfl, fun _ => by simp⟩
  | i :: is, k, cs, z, h => by
    rw [List.zipIdx_cons, List.foldlM_cons] at h
    obtain ⟨w, hw, h⟩ := bind_eq_ok.mp h
    obtain ⟨a, ha, hw⟩ := bind_eq_ok.mp hw
    obtain ⟨c, rfl, hc⟩ := cells_lane ha
    obtain ⟨rfl, hi⟩ := cells_setLane hw
    obtain ⟨ds, rfl, hlen, hkept, hput⟩ := foldlM_setLane_cells h
    rw [List.length_set] at hlen
    refine ⟨ds, rfl, hlen, fun j hj => ?_, fun hnodup => ?_⟩
    · rw [List.mem_cons, not_or] at hj
      rw [hkept j hj.2, List.getElem?_set_ne (Ne.symm hj.1)]
    · obtain ⟨hnot, hnodup⟩ := List.nodup_cons.mp hnodup
      have hlt : k < y.cells.length := (List.getElem?_eq_some_iff.mp hc).1
      rw [List.map_cons, hput hnodup, hkept i hnot, List.getElem?_set_self hi,
        List.drop_eq_getElem_cons hlt, List.length_cons, List.take_succ_cons, List.map_cons]
      rw [List.getElem?_eq_getElem hlt] at hc
      rw [Option.some.inj hc]

/-- What is set are the lanes with the indices, and no others. -/
theorem cells_setLanes (hx : x.row? = some n) (hy : y.cells.length = is.length)
    (h : setLanes x is y = .ok z) :
    z.row? = x.row? ∧ (∀ j, j ∉ is → z.cells[j]? = x.cells[j]?) ∧ (is.Nodup → z.Shows is y) := by
  obtain ⟨cs, rfl, -⟩ := row?_eq_some hx
  unfold setLanes at h
  split at h
  · rename_i i
    cases y with
    | row ds =>
      unfold setLane at h
      split at h <;> cases h
    | atom c =>
      obtain ⟨rfl, hi⟩ := cells_setLane h
      refine ⟨by simp, fun j hj => ?_, fun _ => ?_⟩
      · exact List.getElem?_set_ne (fun hij => hj (by simp [hij]))
      · simp [Shows, cells, List.getElem?_set_self hi]
  · obtain ⟨ds, rfl, hlen, hkept, hput⟩ := foldlM_setLane_cells h
    refine ⟨by simp [hlen], hkept, fun hnodup => ?_⟩
    have hall := hput hnodup
    rwa [List.drop_zero, List.take_of_length_le hy.le] at hall

end Value

/-! ### Well-formed values -/

/-- A value has the form of a type, and its narrow integers are in their ranges. -/
structure Value.Proper (t : Ty) (v : Value) : Prop where
  fits : v.Fits t
  within : v.Within t

/-- The variables in scope hold well-formed values of their types. -/
structure Vars.Proper (scope : Scope) (vars : Vars) : Prop where
  holds : vars.Holds scope scope
  within : vars.Within scope

namespace Value

mutual

/-- Memory can give back every well-formed value of a type that it holds. -/
theorem formed_of_fits : ∀ {t : Ty} {v : Value}, t.isStored = true → v.Fits t → v.Within t → Formed t v
  | .void, v, h, _, _ | .pointer _ _ _, v, h, _, _ => by simp [Ty.isStored] at h
  | .scalar s, v, _, hfits, hin => by
    simp only [Fits] at hfits
    obtain ⟨x, rfl, hrow⟩ := hfits
    obtain ⟨c, rfl⟩ := Lanes.row?_eq_none hrow
    simp only [Formed]
    exact ⟨c, rfl, (within_iff_lanes (t := .scalar s) rfl).mp hin _ rfl c (by simp [Lanes.cells])⟩
  | .vector s w, v, _, hfits, hin => by
    simp only [Fits] at hfits
    obtain ⟨x, rfl, hrow⟩ := hfits
    obtain ⟨cs, rfl, hlen⟩ := Lanes.row?_eq_some hrow
    simp only [Formed]
    exact ⟨cs, rfl, hlen, (within_iff_lanes (t := .vector s w) rfl).mp hin _ rfl⟩
  | .tuple ts, v, h, hfits, hin => by
    simp only [Ty.isStored] at h
    simp only [Fits] at hfits
    obtain ⟨vs, rfl, hvs⟩ := hfits
    simp only [Within] at hin
    simp only [Formed]
    exact ⟨vs, rfl, formedAll_of_fits h hvs (hin vs rfl)⟩

theorem formedAll_of_fits : ∀ {ts : List Ty} {vs : List Value}, Ty.areStored ts = true →
    FitsAll ts vs → AllWithin ts vs → FormedAll ts vs
  | [], [], _, _, _ => by simp [FormedAll]
  | [], _ :: _, _, h, _ | _ :: _, [], _, h, _ => by simp [FitsAll] at h
  | t :: ts, v :: vs, h, hfits, hin => by
    simp only [Ty.areStored, Bool.and_eq_true] at h
    simp only [FitsAll] at hfits
    simp only [AllWithin] at hin
    simp only [FormedAll]
    exact ⟨formed_of_fits h.1 hfits.1 hin.1, formedAll_of_fits h.2 hfits.2 hin.2⟩

end

mutual

/-- A value that fits is written on bytes of scalars of its type only. -/
theorem covers_of_spans : ∀ {t : Ty} {v : Value} {i : Nat}, v.Fits t → spans t v i = true →
    t.covers i = true
  | .void, v, i, hfits, h => by
    simp only [Fits] at hfits
    subst hfits
    simp [spans] at h
  | .pointer _ _ _, v, i, hfits, h => by
    simp only [Fits] at hfits
    obtain ⟨p, rfl⟩ := hfits
    simp [spans] at h
  | .scalar s, v, i, hfits, h => by rwa [← spans_eq_covers rfl hfits]
  | .vector s w, v, i, hfits, h => by rwa [← spans_eq_covers rfl hfits]
  | .tuple ts, v, i, hfits, h => by
    simp only [Fits] at hfits
    obtain ⟨vs, rfl, hvs⟩ := hfits
    rw [spans] at h
    rw [Ty.covers]
    exact coversFrom_of_spansFrom hvs h

theorem coversFrom_of_spansFrom : ∀ {ts : List Ty} {vs : List Value} {used i : Nat}, FitsAll ts vs →
    spansFrom used ts vs i = true → Ty.coversFrom used ts i = true
  | [], vs, used, i, _, h => by simp [spansFrom] at h
  | t :: ts, [], used, i, hfits, _ => by simp [FitsAll] at hfits
  | t :: ts, v :: vs, used, i, hfits, h => by
    simp only [FitsAll] at hfits
    rw [spansFrom, Bool.or_eq_true, Bool.and_eq_true] at h
    rw [Ty.coversFrom, Bool.or_eq_true, Bool.and_eq_true]
    exact h.imp (fun h => ⟨h.1, covers_of_spans hfits.1 h.2⟩) (coversFrom_of_spansFrom hfits.2)

end

/-- A second write overrides the first. -/
theorem encodeAt_encodeAt {t : Ty} {v w : Value} {dst mid : Bytes} {base : Nat}
    (ht : t.isStored = true) (hv : Written t v dst base mid) (hw : w.Proper t)
    (hroom : base + t.size ≤ dst.size) : encodeAt t w mid base = encodeAt t w dst base := by
  obtain ⟨out, hout⟩ := exists_written (formed_of_fits ht hw.fits hw.within) hroom
  have hsame := sameWrite t w hv.size_eq base
  refine Prod.ext (Array.ext_getElem? fun i => ?_) hsame.outcome_eq
  by_cases hi : base ≤ i ∧ spans t w (i - base) = true
  · have hi' := hsame.same (by rw [hout.encoded]) (i - base) hi.2
    rwa [Nat.add_sub_cancel' hi.1] at hi'
  · rw [(hsame.kept i hi).1, (hsame.kept i hi).2]
    exact hv.kept i (by rwa [← spans_eq_covers ht hw.fits])

end Value

/-! ### Memories -/

namespace Store

variable {st st' : Store} {m : Nat} {o : BitVec 64} {t : Ty} {v w : Value}

/-- An access that passes the check lies inside, when its size is no number that wraps. -/
theorem inside_of_access {n s start : Nat} (hs : s < 2 ^ 63) (h : access n o s = .inside start) :
    start = o.toNat ∧ o.toNat + s ≤ n := by
  unfold access at h
  simp only at h
  split at h
  · cases h
  split at h
  · cases h
  cases h
  rename_i hout hwrap
  rw [not_or] at hout
  have hfinish := toInt_finish hs (Int.not_lt.mp hout.1)
  have hcond := BitVec.toInt_eq_toNat_cond o
  refine ⟨rfl, ?_⟩
  split at hfinish <;> split at hcond <;> omega

theorem getD_set {block : Bytes} (h : block.size = (st.getD m #[]).size) :
    (st.setIfInBounds m block).getD m #[] = block := by
  refine Array.ext_getElem? fun i => ?_
  have hi := byte?_set h (m, i)
  rwa [if_pos rfl] at hi

/-- What a load reads are bytes of its own. -/
theorem load_congr (hshape : st'.SameShape st)
    (h : ∀ i, o.toNat ≤ i → i < o.toNat + t.size → st'.byte? (m, i) = st.byte? (m, i)) :
    st'.load m o t = st.load m o t := by
  simp only [load, hshape.size_getD m]
  cases hacc : access (st.getD m #[]).size o t.size with
  | inside start =>
    have hstart : start = o.toNat := by
      unfold access at hacc
      simp only at hacc
      split at hacc
      · cases hacc
      · split at hacc <;> cases hacc
        rfl
    subst hstart
    have hslice : Bytes.slice (st'.getD m #[]) o.toNat t.size =
        Bytes.slice (st.getD m #[]) o.toNat t.size := Bytes.slice_congr h
    simp only [hslice]
  | outside => rfl
  | wrapped => rfl

theorem store_outside (h : ∀ start, access (st.getD m #[]).size o t.size ≠ .inside start) :
    (Exec.store m o t v st).2 = st ∧ (Exec.store m o t v st).1 ≠ .ok () := by
  simp only [Exec.store, store]
  cases hacc : access (st.getD m #[]).size o t.size with
  | inside start => exact absurd hacc (h start)
  | outside => exact ⟨rfl, by simp⟩
  | wrapped => exact ⟨rfl, by simp⟩

/-- What a store that succeeds has done: the access was inside, and the value was written. -/
structure Puts (st : Store) (m : Nat) (o : BitVec 64) (t : Ty) (v : Value) (block : Bytes) : Prop where
  inside : access (st.getD m #[]).size o t.size = .inside o.toNat
  room : o.toNat + t.size ≤ (st.getD m #[]).size
  stored : t.isStored = true
  written : Value.Written t v (st.getD m #[]) o.toNat block

theorem exists_puts (hsize : t.size < 2 ^ 63) (hv : v.Proper t)
    (h : Exec.store m o t v st = (.ok (), st')) :
    ∃ block, Puts st m o t v block ∧ st' = st.setIfInBounds m block := by
  by_cases hacc : ∀ start, access (st.getD m #[]).size o t.size ≠ .inside start
  · exact absurd (by rw [h]) (store_outside (v := v) hacc).2
  simp only [ne_eq, not_forall, not_not] at hacc
  obtain ⟨start, hacc⟩ := hacc
  obtain ⟨rfl, hroom⟩ := inside_of_access hsize hacc
  have hanswers := Value.encodeAt_answers hv.fits (st.getD m #[]) o.toNat
  simp only [Exec.store, store_inside v hacc, Prod.mk.injEq] at h
  cases ht : t.isStored with
  | true =>
    obtain ⟨block, hblock⟩ := Value.exists_written (Value.formed_of_fits ht hv.fits hv.within) hroom
    refine ⟨block, ⟨hacc, hroom, ht, hblock⟩, ?_⟩
    rw [← h.2, hblock.encoded]
  | false =>
    rw [ht] at hanswers
    obtain ⟨c, hc, -⟩ := hanswers
    rw [hc] at h
    cases h.1

theorem Puts.run {block : Bytes} (h : Puts st m o t v block) :
    Exec.store m o t v st = (.ok (), st.setIfInBounds m block) := by
  simp only [Exec.store, store_inside v h.inside, h.written.encoded]

theorem Puts.load {block : Bytes} (h : Puts st m o t v block) :
    Store.load (st.setIfInBounds m block) m o t = .ok v := by
  have hget := getD_set h.written.size_eq
  simp only [Store.load, hget, h.written.size_eq, h.inside, Value.decode, h.written.decoded]

theorem Puts.again {block : Bytes} (h : Puts st m o t v block) (hw : w.Proper t) :
    Exec.store m o t w (st.setIfInBounds m block) = Exec.store m o t w st := by
  have hget := getD_set h.written.size_eq
  have hinside : access ((st.setIfInBounds m block).getD m #[]).size o t.size = .inside o.toNat := by
    rw [hget, h.written.size_eq, h.inside]
  simp only [Exec.store, store_inside w h.inside, store_inside w hinside, hget,
    Value.encodeAt_encodeAt h.stored h.written hw h.room, Array.setIfInBounds_setIfInBounds]

/-- A store keeps the bytes that belong to no scalar of its type, however it ends. -/
theorem byte?_store (hsize : t.size < 2 ^ 63) (hv : v.Fits t) {a : Address}
    (ha : ¬(a.1 = m ∧ o.toNat ≤ a.2 ∧ t.covers (a.2 - o.toNat) = true)) :
    (Exec.store m o t v st).2.byte? a = st.byte? a := by
  by_cases hacc : ∀ start, access (st.getD m #[]).size o t.size ≠ .inside start
  · rw [(store_outside hacc).1]
  simp only [ne_eq, not_forall, not_not] at hacc
  obtain ⟨start, hacc⟩ := hacc
  obtain ⟨rfl, -⟩ := inside_of_access hsize hacc
  have hwrite := Value.sameWrite t v (rfl : (st.getD m #[]).size = _) o.toNat
  simp only [Exec.store, store_inside v hacc]
  rw [byte?_set hwrite.size_eq]
  split
  · rename_i hm
    rw [byte?, hm]
    exact (hwrite.kept a.2 fun h => ha ⟨hm, h.1, Value.covers_of_spans hv h.2⟩).1
  · rfl

theorem sameShape_store : (Exec.store m o t v st).2.SameShape st := by
  by_cases hacc : ∀ start, access (st.getD m #[]).size o t.size ≠ .inside start
  · rw [(store_outside hacc).1]
    exact .refl st
  simp only [ne_eq, not_forall, not_not] at hacc
  obtain ⟨start, hacc⟩ := hacc
  simp only [Exec.store, store_inside v hacc]
  exact sameShape_set (Value.sameWrite t v (rfl : (st.getD m #[]).size = _) start).size_eq

/-- A store of a type that memory holds does all of its work or none. -/
theorem store_fails (hsize : t.size < 2 ^ 63) (hstored : t.isStored = true) (hv : v.Proper t)
    (h : (Exec.store m o t v st).1 ≠ .ok ()) : (Exec.store m o t v st).2 = st := by
  by_cases hacc : ∀ start, access (st.getD m #[]).size o t.size ≠ .inside start
  · exact (store_outside hacc).1
  simp only [ne_eq, not_forall, not_not] at hacc
  obtain ⟨start, hacc⟩ := hacc
  obtain ⟨rfl, hroom⟩ := inside_of_access hsize hacc
  obtain ⟨block, hblock⟩ := Value.exists_written (Value.formed_of_fits hstored hv.fits hv.within) hroom
  exact absurd (Puts.run ⟨hacc, hroom, hstored, hblock⟩) fun hrun => h (by rw [hrun])

/-- Storing what was loaded changes nothing. -/
theorem store_load (hsize : t.size < 2 ^ 63)
    (h : st.load m o t = .ok v) : Exec.store m o t v st = (.ok (), st) := by
  simp only [load] at h
  split at h
  · cases h
  · cases h
  rename_i start hacc
  obtain ⟨rfl, hroom⟩ := inside_of_access hsize hacc
  split at h <;> cases h
  rename_i hdec
  obtain ⟨block, hblock⟩ := Value.exists_written (Value.decodeAt_formed hdec) hroom
  have hset : st.setIfInBounds m block = st := by
    refine (sameShape_set hblock.size_eq).ext fun a => ?_
    rw [byte?_set hblock.size_eq]
    split
    · rename_i hm
      rw [byte?, hm]
      by_cases hin : o.toNat ≤ a.2 ∧ t.covers (a.2 - o.toNat) = true
      · have hcopy := Value.copies hdec hroom hroom
          hblock.encoded _ hin.2
        rwa [Nat.add_sub_cancel' hin.1] at hcopy
      · exact hblock.kept a.2 hin
    · rfl
  simp only [Exec.store, store_inside v hacc, hblock.encoded, hset]

end Store

namespace Value.Picks

variable {s : Scalar} {n : Nat} {is : List Nat} {t : Ty} {x y z : Lanes s.register}

theorem ne_nil (h : Picks s n is t) : is ≠ [] := by
  rintro rfl
  rcases h.form with ⟨h, -⟩ | ⟨w, h, -⟩
  · cases h
  · cases w <;> cases h

theorem row_eq (h : Picks s n is t) (hy : (Value.lanes s.register y).Fits t) : y.row? = t.row? := by
  obtain ⟨u, hu, hrow⟩ := (fits_iff_lanes (element?_of_picks h) _).mp hy
  cases hu
  exact hrow

theorem length_cells (h : Picks s n is t) (hy : (Value.lanes s.register y).Fits t) :
    y.cells.length = is.length := by
  have hrow := h.row_eq hy
  rcases h.form with ⟨hlen, rfl⟩ | ⟨w, hlen, rfl⟩
  · obtain ⟨c, rfl⟩ := Lanes.row?_eq_none hrow
    exact hlen.symm
  · rw [Lanes.length_cells hrow, hlen]

theorem select (h : Picks s n is t) (hx : x.row? = some n) :
    ∃ y, selectLanes x is = .ok y ∧ (Value.lanes s.register y).Fits t ∧ x.Shows is y := by
  obtain ⟨y, hy, hfits⟩ := selectLanes_picks h hx
  exact ⟨y, hy, hfits, shows_selectLanes h.ne_nil hy⟩

theorem eq_of_shows (h : Picks s n is t) (hy : (Value.lanes s.register y).Fits t)
    (hz : (Value.lanes s.register z).Fits t) (hxy : x.Shows is y) (hxz : x.Shows is z) : y = z :=
  Lanes.ext_cells ((h.row_eq hy).trans (h.row_eq hz).symm) (hxy.cells_eq hxz)

/-- What setting the lanes makes of a value. -/
theorem set (h : Picks s n is t) (hnodup : is.Nodup) (hx : x.row? = some n) {v : Value} (hv : v.Fits t) :
    ∃ y z, v = .lanes s.register y ∧ setLanes x is y = .ok z ∧ z.row? = some n ∧ z.Shows is y ∧
      ∀ j, j ∉ is → z.cells[j]? = x.cells[j]? := by
  obtain ⟨y, z, rfl, hz, hrow⟩ := setLanes_picks h hx hv
  obtain ⟨-, hkept, hshows⟩ := cells_setLanes hx (h.length_cells hv) hz
  exact ⟨y, z, rfl, hz, hrow, hshows hnodup, hkept⟩

end Value.Picks

/-! ### Locations -/

namespace Loc

open Exec

/-- The variable or the place in memory that a location is a part of. -/
def root : Loc → Loc
  | var slot => var slot
  | mem memory offset elem => mem memory offset elem
  | field l _ => l.root
  | lanes l _ => l.root

/-- No lanes are selected twice on the way to a location. -/
def Distinct : Loc → Prop
  | var _ | mem _ _ _ => True
  | field l _ => l.Distinct
  | lanes l is => is.Nodup ∧ l.Distinct

/-- The size of what is kept in memory is a number that does not wrap. -/
def Small (l : Loc) : Prop := ∀ memory offset elem, l.root = .mem memory offset elem → elem.size < 2 ^ 63

variable {scope : Scope} {vars vars' : Vars} {l : Loc} {t : Ty} {st st' : Store} {v w : Value}

theorem quiet_load (vars : Vars) : ∀ l : Loc, Quiet (l.load vars)
  | var slot => by
    rw [Loc.load]
    exact quiet_pure _
  | mem memory offset elem => by
    rw [Loc.load]
    exact fun _ => rfl
  | field l i => by
    rw [Loc.load]
    refine (quiet_load vars l).bind fun v => ?_
    split
    · split
      · exact quiet_pure _
      · exact quiet_crash
    · exact quiet_crash
  | lanes l is => by
    rw [Loc.load]
    refine (quiet_load vars l).bind fun v => ?_
    split
    · exact (quiet_of_spares fun _ => spares_ofLanes _).bind fun _ => quiet_pure _
    · exact quiet_crash

/-! One step on the way to a part -/

theorem load_field {vs : List Value} {i : Nat} (h : l.load vars st = (.ok (.record vs), st))
    (hi : vs[i]? = some v) : (field l i).load vars st = (.ok v, st) := by
  rw [Loc.load, bind_ok h]
  simp only [hi]
  rfl

theorem store_field {vs : List Value} {i : Nat} (h : l.load vars st = (.ok (.record vs), st))
    (hi : i < vs.length) : (field l i).store vars v st = l.store vars (.record (vs.set i v)) st := by
  rw [Loc.store, bind_ok h]
  simp only [if_pos hi]

theorem load_lanes {e : Elem} {x y : Lanes e} {is : List Nat}
    (h : l.load vars st = (.ok (.lanes e x), st)) (hy : Value.selectLanes x is = .ok y) :
    (lanes l is).load vars st = (.ok (.lanes e y), st) := by
  rw [Loc.load, bind_ok h]
  simp only [hy]
  rfl

theorem store_lanes {e : Elem} {x y z : Lanes e} {is : List Nat}
    (h : l.load vars st = (.ok (.lanes e x), st)) (hz : Value.setLanes x is y = .ok z) :
    (lanes l is).store vars (.lanes e y) st = l.store vars (.lanes e z) st := by
  rw [Loc.store, bind_ok h]
  simp only [dite_true, hz]
  rfl

/-- What cannot be read cannot be changed in part. -/
theorem no_load_of_no_value (h : (l.load vars).value? st = none) {f : Value → Exec Value}
    (hok : (l.load vars >>= f) st = (.ok v, st')) : False :=
  ((quiet_load vars l).bind_of_no_value h f).2 v (by rw [hok])

theorem no_store_of_no_value (h : (l.load vars).value? st = none) {f : Value → Exec Vars}
    (hok : (l.load vars >>= f) st = (.ok vars', st')) : False :=
  ((quiet_load vars l).bind_of_no_value h f).2 vars' (by rw [hok])

/-- A location holds a well-formed value, unless it cannot be read. -/
theorem Typed.load_cases (hl : l.Typed scope t) (hvars : vars.Proper scope) (st : Store) :
    (l.load vars).value? st = none ∨ ∃ v, l.load vars st = (.ok v, st) ∧ v.Proper t := by
  cases hst : (l.load vars).value? st with
  | none => exact .inl rfl
  | some v =>
    have hrun := (quiet_load vars l).run_of_value? hst
    exact .inr ⟨v, hrun, (hl.safe_load hvars.holds).of_ok hrun,
      hl.ends_load hvars.within st v st hrun⟩

theorem Typed.record_cases {ts : List Ty} (hl : l.Typed scope (.tuple ts)) (hvars : vars.Proper scope)
    (st : Store) : (l.load vars).value? st = none ∨
      ∃ vs, l.load vars st = (.ok (.record vs), st) ∧ Value.FitsAll ts vs ∧ Value.AllWithin ts vs := by
  refine (hl.load_cases hvars st).imp_right fun ⟨v, hload, hfits, hin⟩ => ?_
  simp only [Value.Fits] at hfits
  obtain ⟨vs, rfl, hvs⟩ := hfits
  simp only [Value.Within] at hin
  exact ⟨vs, hload, hvs, hin vs rfl⟩

theorem Typed.row_cases {s : Scalar} {width : Width} (hl : l.Typed scope (.vector s width))
    (hvars : vars.Proper scope) (st : Store) : (l.load vars).value? st = none ∨
      ∃ x : Lanes s.register, l.load vars st = (.ok (.lanes s.register x), st) ∧
        x.row? = some width.lanes ∧ (Value.lanes s.register x).Within (.vector s width) := by
  refine (hl.load_cases hvars st).imp_right fun ⟨v, hload, hfits, hin⟩ => ?_
  simp only [Value.Fits] at hfits
  obtain ⟨x, rfl, hrow⟩ := hfits
  exact ⟨x, hload, hrow, hin⟩

/-- A structure stays well formed when a field is replaced by a well-formed value. -/
theorem proper_set {ts : List Ty} {vs : List Value} {i : Nat} (hfits : Value.FitsAll ts vs)
    (hin : Value.AllWithin ts vs) (hi : ts[i]? = some t) (hv : v.Proper t) :
    (Value.record (vs.set i v)).Proper (.tuple ts) := by
  constructor
  · simp only [Value.Fits]
    exact ⟨_, rfl, hfits.set hi hv.fits⟩
  · simp only [Value.Within]
    intro ws hws
    cases hws
    exact hin.set hi hv.within

theorem proper_row {s : Scalar} {width : Width} {is : List Nat} {x y z : Lanes s.register}
    (his : Value.Picks s width.lanes is t) (hx : (Value.lanes s.register x).Within (.vector s width))
    (hy : (Value.lanes s.register y).Proper t) (hz : Value.setLanes x is y = .ok z)
    (hrow : z.row? = some width.lanes) : (Value.lanes s.register z).Proper (.vector s width) :=
  ⟨Value.fits_lanes (t := .vector s width) rfl hrow, Value.within_setLanes his hx hy.within hz⟩

/-! ### The laws -/

/-- **What was stored is loaded.** -/
theorem Typed.load_stored (hl : l.Typed scope t) (hd : l.Distinct) (hsmall : l.Small)
    (hvars : vars.Proper scope) (hv : v.Proper t) (h : l.store vars v st = (.ok vars', st')) :
    l.load vars' st' = (.ok v, st') := by
  induction hl generalizing v with
  | @var slot t hslot =>
    cases h
    have hlt := (hvars.holds _ _ hslot).2.lt
    rw [Loc.load, Array.getD_eq_getD_getElem?, Array.getElem?_setIfInBounds_self_of_lt hlt]
    rfl
  | mem m o t =>
    obtain ⟨u, st₁, hst, hpure⟩ := of_bind_ok h
    cases hpure
    obtain ⟨block, hputs, rfl⟩ := Store.exists_puts (hsmall m o t rfl) hv hst
    exact congrArg (·, _) hputs.load
  | @field l ts i t hl hi ih =>
    rcases hl.record_cases hvars st with hnone | ⟨vs, hload, hfits, hin⟩
    · exact (no_store_of_no_value hnone h).elim
    have hlt : i < vs.length := hfits.length_eq ▸ (List.getElem?_eq_some_iff.mp hi).1
    rw [store_field hload hlt] at h
    exact load_field (ih hd hsmall (proper_set hfits hin hi hv) h) (List.getElem?_set_self hlt)
  | @lanes l is s width t hl his ih =>
    rcases hl.row_cases hvars st with hnone | ⟨x, hload, hrow, hin⟩
    · exact (no_store_of_no_value hnone h).elim
    obtain ⟨y, z, rfl, hz, hzrow, hshows, -⟩ := his.set hd.1 hrow hv.fits
    rw [store_lanes hload hz] at h
    have hback := ih hd.2 hsmall (proper_row his hin hv hz hzrow) h
    obtain ⟨y', hy', hfits', hshows'⟩ := his.select hzrow
    rw [load_lanes hback hy', his.eq_of_shows hfits' hv.fits hshows' hshows]

/-- **Storing what was loaded changes nothing.** -/
theorem Typed.store_loaded (hl : l.Typed scope t) (hd : l.Distinct) (hsmall : l.Small)
    (hvars : vars.Proper scope) (h : l.load vars st = (.ok v, st)) :
    l.store vars v st = (.ok vars, st) := by
  induction hl generalizing v with
  | @var slot t hslot =>
    cases h
    refine congrArg (fun vars => (Outcome.ok vars, st)) (Array.ext_getElem? fun i => ?_)
    have hlt := (hvars.holds _ _ hslot).2.lt
    rw [Array.getElem?_setIfInBounds, Array.getD_eq_getD_getElem?]
    split
    · rename_i hi
      subst hi
      rw [Array.getElem?_eq_getElem hlt]
      rfl
    · rfl
  | mem m o t =>
    have hload : st.load m o t = .ok v := congrArg Prod.fst h
    rw [Loc.store, bind_ok (Store.store_load (hsmall m o t rfl) hload)]
    rfl
  | @field l ts i t hl hi ih =>
    rcases hl.record_cases hvars st with hnone | ⟨vs, hload, hfits, -⟩
    · exact (no_load_of_no_value hnone h).elim
    obtain ⟨u, hu, -⟩ := hfits.getElem? hi
    rw [load_field hload hu] at h
    cases h
    obtain ⟨hlt, hget⟩ := List.getElem?_eq_some_iff.mp hu
    rw [store_field hload hlt, ← hget, List.set_getElem_self]
    exact ih hd hsmall hload
  | @lanes l is s width t hl his ih =>
    rcases hl.row_cases hvars st with hnone | ⟨x, hload, hrow, -⟩
    · exact (no_load_of_no_value hnone h).elim
    obtain ⟨y, hy, hfits, hshows⟩ := his.select hrow
    rw [load_lanes hload hy] at h
    cases h
    obtain ⟨y', z, heq, hz, hzrow, hshows', hkept⟩ := his.set hd.1 hrow hfits
    cases heq
    have hzx : z = x := Lanes.ext_cells (hzrow.trans hrow.symm)
      (Lanes.cells_eq_of_shows hshows' hshows hkept fun _ _ => rfl)
    rw [store_lanes hload hz, hzx]
    exact ih hd.2 hsmall hload

/-- **A second store overrides the first.** -/
theorem Typed.store_stored (hl : l.Typed scope t) (hd : l.Distinct) (hsmall : l.Small)
    (hvars : vars.Proper scope) (hv : v.Proper t) (hw : w.Proper t)
    (h : l.store vars v st = (.ok vars', st')) : l.store vars' w st' = l.store vars w st := by
  induction hl generalizing v w with
  | @var slot t hslot =>
    cases h
    rw [Loc.store, Loc.store, Array.setIfInBounds_setIfInBounds]
  | mem m o t =>
    obtain ⟨u, st₁, hst, hpure⟩ := of_bind_ok h
    cases hpure
    obtain ⟨block, hputs, rfl⟩ := Store.exists_puts (hsmall m o t rfl) hv hst
    show Exec.bind _ _ _ = Exec.bind _ _ _
    simp only [Exec.bind, hputs.again hw]
  | @field l ts i t hl hi ih =>
    rcases hl.record_cases hvars st with hnone | ⟨vs, hload, hfits, hin⟩
    · exact (no_store_of_no_value hnone h).elim
    have hlt : i < vs.length := hfits.length_eq ▸ (List.getElem?_eq_some_iff.mp hi).1
    rw [store_field hload hlt] at h
    have hback := hl.load_stored hd hsmall hvars (proper_set hfits hin hi hv) h
    rw [store_field hback (by rwa [List.length_set]), List.set_set, store_field hload hlt]
    exact ih hd hsmall (proper_set hfits hin hi hv) (proper_set hfits hin hi hw) h
  | @lanes l is s width t hl his ih =>
    rcases hl.row_cases hvars st with hnone | ⟨x, hload, hrow, hin⟩
    · exact (no_store_of_no_value hnone h).elim
    obtain ⟨y, z, rfl, hz, hzrow, -, hkept⟩ := his.set hd.1 hrow hv.fits
    rw [store_lanes hload hz] at h
    have hproper := proper_row his hin hv hz hzrow
    have hback := hl.load_stored hd.2 hsmall hvars hproper h
    obtain ⟨y', z', rfl, hz', hzrow', hshows', hkept'⟩ := his.set hd.1 hrow hw.fits
    obtain ⟨y'', z'', hy'', hz'', hzrow'', hshows'', hkept''⟩ := his.set hd.1 hzrow hw.fits
    cases hy''
    have hsame : z'' = z' := Lanes.ext_cells (hzrow''.trans hzrow'.symm)
      (Lanes.cells_eq_of_shows hshows'' hshows' (fun j hj => (hkept'' j hj).trans (hkept j hj)) hkept')
    rw [store_lanes hback hz'', store_lanes hload hz', hsame]
    exact ih hd.2 hsmall hproper (proper_row his hin hw hz' hzrow') h

end Loc

namespace Value

open Lanes

variable {e : Elem} {x y : Lanes e} {is : List Nat}

theorem mapM_lane_congr : ∀ {is : List Nat}, (∀ i ∈ is, x.lane (i : Nat) = y.lane (i : Nat)) →
    (is.mapM fun i : Nat => x.lane i) = is.mapM fun i : Nat => y.lane i
  | [], _ => rfl
  | i :: is, h => by
    rw [List.mapM_cons, List.mapM_cons, h i List.mem_cons_self,
      mapM_lane_congr fun j hj => h j (List.mem_cons_of_mem i hj)]

/-- Only the selected lanes and the form of a value matter. -/
theorem selectLanes_congr (hshape : x.shape = y.shape) (h : ∀ i ∈ is, x.cells[i]? = y.cells[i]?) :
    selectLanes x is = selectLanes y is := by
  have hlane : ∀ i ∈ is, x.lane (i : Nat) = y.lane (i : Nat) := by
    intro i hi
    rw [lane, lane, Int.toNat_natCast, h i hi, hshape]
  unfold selectLanes
  split
  · exact hlane _ (by simp)
  · rw [mapM_lane_congr hlane]

end Value

namespace Loc

open Exec

variable {scope : Scope} {vars vars' : Vars} {l l' : Loc} {t : Ty} {st st' : Store} {v : Value}

/-- Two locations that share no variable, no byte, no field and no lane. -/
inductive Apart : Loc → Loc → Prop
  | vars {slot slot' : Nat} (h : slot ≠ slot') : Apart (.var slot) (.var slot')
  | varMem {slot m : Nat} {o : BitVec 64} {t : Ty} : Apart (.var slot) (.mem m o t)
  | memVar {slot m : Nat} {o : BitVec 64} {t : Ty} : Apart (.mem m o t) (.var slot)
  | mems {m m' : Nat} {o o' : BitVec 64} {t t' : Ty}
      (h : m ≠ m' ∨ o.toNat + t.size ≤ o'.toNat ∨ o'.toNat + t'.size ≤ o.toNat) :
      Apart (.mem m o t) (.mem m' o' t')
  | fields {l : Loc} {i j : Nat} (h : i ≠ j) : Apart (.field l i) (.field l j)
  | rows {l : Loc} {is js : List Nat} (h : ∀ j ∈ js, j ∉ is) : Apart (.lanes l is) (.lanes l js)
  | fieldLeft {l l' : Loc} {i : Nat} (h : Apart l l') : Apart (.field l i) l'
  | fieldRight {l l' : Loc} {i : Nat} (h : Apart l l') : Apart l (.field l' i)
  | lanesLeft {l l' : Loc} {is : List Nat} (h : Apart l l') : Apart (.lanes l is) l'
  | lanesRight {l l' : Loc} {is : List Nat} (h : Apart l l') : Apart l (.lanes l' is)

/-- What follows a load and looks at the value only. -/
theorem fst_bind_load {f : Value → Exec Value} (hf : ∀ u, ∃ r, ∀ st, f u st = (r, st))
    (h : (l.load vars' st').1 = (l.load vars st).1) :
    ((l.load vars' >>= f) st').1 = ((l.load vars >>= f) st).1 := by
  show (Exec.bind _ _ _).1 = (Exec.bind _ _ _).1
  unfold Exec.bind
  rcases hx : l.load vars' st' with ⟨r, s⟩
  rcases hy : l.load vars st with ⟨r', s'⟩
  rw [hx, hy] at h
  obtain rfl : r = r' := h
  cases r with
  | ok u =>
    obtain ⟨r, hr⟩ := hf u
    simp only [hr]
  | _ => rfl

/-- **A store leaves what is apart from its location.** -/
theorem Apart.load_eq (hap : l.Apart l') (hl : l.Typed scope t) (hd : l.Distinct) (hsmall : l.Small)
    (hvars : vars.Proper scope) (hv : v.Proper t) (h : l.store vars v st = (.ok vars', st')) :
    (l'.load vars' st').1 = (l'.load vars st).1 := by
  induction hap generalizing t v with
  | vars hne =>
    cases h
    rw [Loc.load, Loc.load, Array.getD_eq_getD_getElem?, Array.getElem?_setIfInBounds_ne hne,
      ← Array.getD_eq_getD_getElem?]
  | varMem =>
    cases h
    rfl
  | memVar =>
    obtain ⟨u, st₁, -, hpure⟩ := of_bind_ok h
    cases hpure
    rfl
  | @mems m m' o o' t t' hne =>
    cases hl
    obtain ⟨u, st₁, hst, hpure⟩ := of_bind_ok h
    cases hpure
    obtain rfl : (Exec.store m o t v st).2 = st' := by rw [hst]
    refine Store.load_congr Store.sameShape_store fun i hi hlt => ?_
    refine Store.byte?_store (hsmall m o t rfl) hv.fits fun hin => ?_
    have hcovered := Ty.lt_size_of_covers hin.2.2
    dsimp only at hin hcovered
    omega
  | @fields p i j hne =>
    cases hl with
    | field hp hi =>
    rcases hp.record_cases hvars st with hnone | ⟨vs, hload, hfits, hin⟩
    · exact (no_store_of_no_value hnone h).elim
    have hlt : i < vs.length := hfits.length_eq ▸ (List.getElem?_eq_some_iff.mp hi).1
    rw [store_field hload hlt] at h
    have hback := hp.load_stored hd hsmall hvars (proper_set hfits hin hi hv) h
    rw [Loc.load, Loc.load, bind_ok hback, bind_ok hload]
    dsimp only
    rw [List.getElem?_set_ne hne]
    cases vs[j]? <;> rfl
  | @rows p is js hdisj =>
    cases hl with
    | lanes hp his =>
    rcases hp.row_cases hvars st with hnone | ⟨x, hload, hrow, hin⟩
    · exact (no_store_of_no_value hnone h).elim
    obtain ⟨y, z, rfl, hz, hzrow, -, hkept⟩ := his.set hd.1 hrow hv.fits
    rw [store_lanes hload hz] at h
    have hback := hp.load_stored hd.2 hsmall hvars (proper_row his hin hv hz hzrow) h
    have hshape : z.shape = x.shape := by
      obtain ⟨cs, rfl, hcs⟩ := Lanes.row?_eq_some hzrow
      obtain ⟨ds, rfl, hds⟩ := Lanes.row?_eq_some hrow
      rw [Lanes.shape, Lanes.shape, hcs, hds]
    rw [Loc.load, Loc.load, bind_ok hback, bind_ok hload]
    dsimp only
    rw [Value.selectLanes_congr hshape fun j hj => hkept j (hdisj j hj)]
    cases Value.selectLanes x js <;> rfl
  | @fieldLeft p l' i _ ih =>
    cases hl with
    | field hp hi =>
    rcases hp.record_cases hvars st with hnone | ⟨vs, hload, hfits, hin⟩
    · exact (no_store_of_no_value hnone h).elim
    have hlt : i < vs.length := hfits.length_eq ▸ (List.getElem?_eq_some_iff.mp hi).1
    rw [store_field hload hlt] at h
    exact ih hp hd hsmall (proper_set hfits hin hi hv) h
  | @lanesLeft p l' is _ ih =>
    cases hl with
    | lanes hp his =>
    rcases hp.row_cases hvars st with hnone | ⟨x, hload, hrow, hin⟩
    · exact (no_store_of_no_value hnone h).elim
    obtain ⟨y, z, rfl, hz, hzrow, -, -⟩ := his.set hd.1 hrow hv.fits
    rw [store_lanes hload hz] at h
    exact ih hp hd.2 hsmall (proper_row his hin hv hz hzrow) h
  | @fieldRight l p i _ ih =>
    rw [Loc.load, Loc.load]
    refine fst_bind_load (fun u => ?_) (ih hl hd hsmall hv h)
    split
    · rename_i vs
      cases vs[i]? with
      | some w => exact ⟨_, fun _ => rfl⟩
      | none => exact ⟨_, fun _ => rfl⟩
    · exact ⟨_, fun _ => rfl⟩
  | @lanesRight l p is _ ih =>
    rw [Loc.load, Loc.load]
    refine fst_bind_load (fun u => ?_) (ih hl hd hsmall hv h)
    split
    · rename_i e x
      cases hx : Value.selectLanes x is with
      | ok y => exact ⟨_, fun _ => rfl⟩
      | error c => exact ⟨_, fun _ => rfl⟩
    · exact ⟨_, fun _ => rfl⟩

/-! ### The whole that a location is a part of -/

theorem root_cases : ∀ l : Loc, (∃ slot, l.root = .var slot) ∨ ∃ m o u, l.root = .mem m o u
  | var slot => .inl ⟨slot, rfl⟩
  | mem m o u => .inr ⟨m, o, u, rfl⟩
  | field l _ => root_cases l
  | lanes l _ => root_cases l

/-- A store to a part is a store of a well-formed value to the whole, or comes to nothing. -/
theorem Typed.store_cases (hl : l.Typed scope t) (hd : l.Distinct) (hvars : vars.Proper scope)
    (hv : v.Proper t) (st : Store) :
    (∃ u w, l.root.Typed scope u ∧ w.Proper u ∧ l.store vars v st = l.root.store vars w st) ∨
      (l.store vars v st).2 = st ∧ ∀ vars', (l.store vars v st).1 ≠ .ok vars' := by
  induction hl generalizing v with
  | var hslot => exact .inl ⟨_, v, .var hslot, hv, rfl⟩
  | mem m o t => exact .inl ⟨t, v, .mem m o t, hv, rfl⟩
  | @field l ts i t hl hi ih =>
    rcases hl.record_cases hvars st with hnone | ⟨vs, hload, hfits, hin⟩
    · exact .inr ((quiet_load vars l).bind_of_no_value hnone _)
    have hlt : i < vs.length := hfits.length_eq ▸ (List.getElem?_eq_some_iff.mp hi).1
    rw [store_field hload hlt]
    exact ih hd (proper_set hfits hin hi hv)
  | @lanes l is s width t hl his ih =>
    rcases hl.row_cases hvars st with hnone | ⟨x, hload, hrow, hin⟩
    · exact .inr ((quiet_load vars l).bind_of_no_value hnone _)
    obtain ⟨y, z, rfl, hz, hzrow, -, -⟩ := his.set hd.1 hrow hv.fits
    rw [store_lanes hload hz]
    exact ih hd.2 (proper_row his hin hv hz hzrow)

/-- A store to memory changes the memories only. -/
theorem snd_store_mem (m : Nat) (o : BitVec 64) (u : Ty) (vars : Vars) (v : Value) (st : Store) :
    ((mem m o u).store vars v st).2 = (Exec.store m o u v st).2 ∧
      ((Exec.store m o u v st).1 = .ok () → ((mem m o u).store vars v st).1 = .ok vars) := by
  rw [Loc.store]
  rcases hrun : Exec.store m o u v st with ⟨outcome, st₁⟩
  cases outcome with
  | ok _ => exact ⟨by rw [bind_ok hrun]; rfl, fun _ => by rw [bind_ok hrun]; rfl⟩
  | failed c => exact ⟨by rw [bind_failed hrun], nofun⟩
  | crashed c => exact ⟨by rw [bind_crashed hrun], nofun⟩
  | exhausted =>
    have hbind : (Exec.store m o u v >>= fun _ => (Pure.pure vars : Exec Vars)) st = (.exhausted, st₁) := by
      show Exec.bind _ _ st = _
      rw [Exec.bind, hrun]
    exact ⟨by rw [hbind], nofun⟩

/-- No variable but that of the location is changed. -/
theorem Typed.getElem?_stored (hl : l.Typed scope t) (hd : l.Distinct) (hvars : vars.Proper scope)
    (hv : v.Proper t) (h : l.store vars v st = (.ok vars', st')) {slot : Nat}
    (hne : l.root ≠ .var slot) : vars'[slot]? = vars[slot]? := by
  rcases hl.store_cases hd hvars hv st with ⟨u, w, -, -, heq⟩ | ⟨-, hnot⟩
  · rw [heq] at h
    rcases l.root_cases with ⟨slot', hroot⟩ | ⟨m, o, u, hroot⟩ <;> rw [hroot] at h
    · cases h
      exact Array.getElem?_setIfInBounds_ne fun hs => hne (by rw [hroot, hs])
    · obtain ⟨-, st₁, -, hpure⟩ := of_bind_ok h
      cases hpure
      rfl
  · exact absurd (by rw [h]) (hnot vars')

/-- The bytes of memory that hold the scalars of the whole that a location is a part of. -/
def Owns (l : Loc) (a : Address) : Prop :=
  ∃ memory offset elem, l.root = .mem memory offset elem ∧ a.1 = memory ∧ offset.toNat ≤ a.2 ∧
    elem.covers (a.2 - offset.toNat) = true

/-- **A store keeps the bytes around its location**, however it ends. -/
theorem Typed.byte?_stored (hl : l.Typed scope t) (hd : l.Distinct) (hsmall : l.Small)
    (hvars : vars.Proper scope) (hv : v.Proper t) {a : Address} (ha : ¬ l.Owns a) :
    (l.store vars v st).2.byte? a = st.byte? a := by
  rcases hl.store_cases hd hvars hv st with ⟨u, w, hu, hw, heq⟩ | ⟨hsame, -⟩
  · rw [heq]
    rcases l.root_cases with ⟨slot, hroot⟩ | ⟨m, o, u', hroot⟩ <;> rw [hroot] at hu ⊢
    · rfl
    · cases hu
      rw [(snd_store_mem m o u vars w st).1]
      exact Store.byte?_store (hsmall m o u hroot) hw.fits fun h => ha ⟨m, o, u, hroot, h⟩
  · rw [hsame]

/-- What is kept in memory is of a type that memory holds. -/
def Stored (l : Loc) : Prop := ∀ memory offset elem, l.root = .mem memory offset elem → elem.isStored = true

/-- **A store that fails changes nothing**, if memory holds the type. -/
theorem Typed.store_failed (hl : l.Typed scope t) (hd : l.Distinct) (hsmall : l.Small)
    (hstored : l.Stored) (hvars : vars.Proper scope) (hv : v.Proper t)
    (h : ∀ vars', (l.store vars v st).1 ≠ .ok vars') : (l.store vars v st).2 = st := by
  rcases hl.store_cases hd hvars hv st with ⟨u, w, hu, hw, heq⟩ | ⟨hsame, -⟩
  · rw [heq] at h ⊢
    rcases l.root_cases with ⟨slot, hroot⟩ | ⟨m, o, u', hroot⟩ <;> rw [hroot] at hu h ⊢
    · exact absurd rfl (h _)
    · cases hu
      obtain ⟨hsnd, hok⟩ := snd_store_mem m o u vars w st
      rw [hsnd]
      exact Store.store_fails (hsmall m o u hroot) (hstored m o u hroot) hw fun hfst => h vars (hok hfst)
  · exact hsame

-- Memory holds nothing void.  The field before it stays written.
example : (mem 0 0 (.tuple [.scalar .int, .void])).store #[]
    (.record [.lanes .int32 (.atom 1), .nothing]) #[Array.replicate 4 0] =
      (.failed .storeNothing, #[#[1, 0, 0, 0]]) := rfl

end Loc

/-! ### Lanes of lanes -/

theorem Lanes.Shows.getElem? {e : Elem} {x y : Lanes e} {is : List Nat} (h : x.Shows is y) {j : Nat}
    (hj : j < is.length) : y.cells[j]? = x.cells[is.getD j 0]? := by
  have hget := congrArg (·[j]?) h
  simp only [List.getElem?_map, List.getElem?_eq_getElem hj, Option.map_some] at hget
  rw [List.getD_eq_getElem _ _ hj]
  cases hy : y.cells[j]? with
  | none =>
    rw [hy] at hget
    cases hget
  | some c =>
    rw [hy] at hget
    exact (Option.some.inj hget).symm

theorem Lanes.Shows.comp {e : Elem} {x y z : Lanes e} {is js : List Nat} (h : x.Shows is y)
    (h' : y.Shows js z) (hjs : ∀ j ∈ js, j < is.length) : x.Shows (js.map (is.getD · 0)) z := by
  rw [Shows, ← h', List.map_map]
  exact List.map_congr_left fun j hj => (h.getElem? (hjs j hj)).symm

namespace Value.Picks

variable {s : Scalar} {n : Nat} {is js : List Nat} {width : Width} {t : Ty}

theorem length_eq (h : Picks s n is (.vector s width)) : is.length = width.lanes := by
  rcases h.form with ⟨-, h⟩ | ⟨w, hlen, h⟩ <;> cases h
  exact hlen

theorem scalar_eq {s' : Scalar} (h : Picks s' n is (.vector s width)) : s' = s := by
  rcases h.form with ⟨-, h⟩ | ⟨w, -, h⟩ <;> cases h
  rfl

theorem comp (h : Picks s n is (.vector s width)) (h' : Picks s width.lanes js t) :
    Picks s n (js.map (is.getD · 0)) t := by
  refine ⟨fun i hi => ?_, by rw [List.length_map]; exact h'.form⟩
  obtain ⟨j, hj, rfl⟩ := List.mem_map.mp hi
  have hlt : j < is.length := h.length_eq ▸ h'.inside j hj
  rw [List.getD_eq_getElem _ _ hlt]
  exact h.inside _ (List.getElem_mem hlt)

theorem nodup_comp (h : Picks s n is (.vector s width)) (h' : Picks s width.lanes js t) (hi : is.Nodup)
    (hj : js.Nodup) : (js.map (is.getD · 0)).Nodup := by
  refine hj.map_on fun j hj j' hj' heq => ?_
  have hlt : j < is.length := h.length_eq ▸ h'.inside j hj
  have hlt' : j' < is.length := h.length_eq ▸ h'.inside j' hj'
  rw [List.getD_eq_getElem _ _ hlt, List.getD_eq_getElem _ _ hlt'] at heq
  exact (List.Nodup.getElem_inj_iff hi).mp heq

end Value.Picks

namespace Loc

open Exec

/-- Lanes of a location, where lanes of lanes are lanes of the vector. -/
def pick (js : List Nat) : Loc → Loc
  | lanes l is => lanes l (js.map (is.getD · 0))
  | l => lanes l js

/-- A location without lanes of lanes. -/
def flat : Loc → Loc
  | var slot => var slot
  | mem memory offset elem => mem memory offset elem
  | field l i => field l.flat i
  | lanes l js => l.flat.pick js

variable {scope : Scope} {vars vars' : Vars} {l : Loc} {t : Ty} {st st' : Store} {v : Value}
  {s : Scalar} {width : Width} {js : List Nat}

theorem Typed.pick (hl : l.Typed scope (.vector s width)) (hjs : Value.Picks s width.lanes js t) :
    (l.pick js).Typed scope t := by
  cases hl with
  | lanes hp his =>
    obtain rfl := his.scalar_eq.symm
    exact .lanes hp (his.comp hjs)
  | var h => exact .lanes (.var h) hjs
  | mem m o => exact .lanes (.mem m o _) hjs
  | field hp hi => exact .lanes (.field hp hi) hjs

theorem Typed.flat (hl : l.Typed scope t) : l.flat.Typed scope t := by
  induction hl with
  | var h => exact .var h
  | mem m o t => exact .mem m o t
  | field hp hi ih => exact .field ih hi
  | lanes hp his ih => exact ih.pick his

theorem value?_of_run (h : l.load vars st = (.ok v, st)) : (l.load vars).value? st = some v := by
  rw [value?, h]

theorem value?_lanes_congr {is : List Nat} {l' : Loc}
    (h : (l.load vars).value? st = (l'.load vars).value? st) :
    ((lanes l is).load vars).value? st = ((lanes l' is).load vars).value? st := by
  rw [Loc.load, (quiet_load vars l).value?_bind, h, Loc.load, (quiet_load vars l').value?_bind]

theorem value?_field_congr {i : Nat} {l' : Loc}
    (h : (l.load vars).value? st = (l'.load vars).value? st) :
    ((field l i).load vars).value? st = ((field l' i).load vars).value? st := by
  rw [Loc.load, (quiet_load vars l).value?_bind, h, Loc.load, (quiet_load vars l').value?_bind]

theorem value?_lanes_none {is : List Nat} (h : (l.load vars).value? st = none) :
    ((lanes l is).load vars).value? st = none := by
  rw [Loc.load, (quiet_load vars l).value?_bind, h]
  rfl

theorem Typed.value?_pick (hl : l.Typed scope (.vector s width))
    (hjs : Value.Picks s width.lanes js t) (hvars : vars.Proper scope) :
    ((l.pick js).load vars).value? st = ((Loc.lanes l js).load vars).value? st := by
  cases l with
  | lanes p is =>
    cases hl with
    | lanes hp his =>
    obtain rfl := his.scalar_eq.symm
    rcases hp.row_cases hvars st with hnone | ⟨x, hload, hrow, -⟩
    · rw [Loc.pick, value?_lanes_none hnone, value?_lanes_none (value?_lanes_none hnone)]
    obtain ⟨y, hy, hfits, hshows⟩ := his.select hrow
    obtain ⟨u, hu, hfits', hshows'⟩ := hjs.select ((his.row_eq hfits).trans rfl)
    obtain ⟨u', hu', hfits'', hshows''⟩ := (his.comp hjs).select hrow
    have hsame : u' = u := (his.comp hjs).eq_of_shows hfits'' hfits' hshows''
      (hshows.comp hshows' fun j hj => his.length_eq ▸ hjs.inside j hj)
    rw [Loc.pick, value?_of_run (load_lanes hload hu'), value?_of_run (load_lanes (load_lanes hload hy) hu),
      hsame]
  | var slot => rfl
  | mem m o t => rfl
  | field p i => rfl

theorem Typed.store_pick (hl : l.Typed scope (.vector s width)) (hd : l.Distinct)
    (hjs : Value.Picks s width.lanes js t) (hnodup : js.Nodup) (hvars : vars.Proper scope) (hv : v.Fits t)
    (h : (Loc.lanes l js).store vars v st = (.ok vars', st')) :
    (l.pick js).store vars v st = (.ok vars', st') := by
  cases l with
  | lanes p is =>
    cases hl with
    | lanes hp his =>
    obtain rfl := his.scalar_eq.symm
    rcases hp.row_cases hvars st with hnone | ⟨x, hload, hrow, -⟩
    · obtain ⟨a, st₁, ha, -⟩ := of_bind_ok h
      exact (no_load_of_no_value hnone ha).elim
    obtain ⟨y, hy, hfits, hshows⟩ := his.select hrow
    obtain ⟨u, y', rfl, hy', hrow', hshows', hkept'⟩ := hjs.set hnodup ((his.row_eq hfits).trans rfl) hv
    have hfits' : (Value.lanes s.register y').Fits (.vector s width) :=
      Value.fits_lanes (t := .vector s width) rfl hrow'
    obtain ⟨y'', z, heq, hz, hzrow, hzshows, hzkept⟩ := his.set hd.1 hrow hfits'
    cases heq
    obtain ⟨u', z', heq, hz', hzrow', hzshows', hzkept'⟩ :=
      (his.comp hjs).set (his.nodup_comp hjs hd.1 hnodup) hrow hv
    cases heq
    have hinside : ∀ j ∈ js, j < is.length := fun j hj => his.length_eq ▸ hjs.inside j hj
    have hsame : z = z' := by
      refine Lanes.ext_cells (hzrow.trans hzrow'.symm)
        (Lanes.cells_eq_of_shows (hzshows.comp hshows' hinside) hzshows' (fun k hk => ?_) hzkept')
      -- A lane of the vector that is not set is one that is put back, or is not touched.
      by_cases hmem : k ∈ is
      · obtain ⟨j, hj, rfl⟩ := List.getElem_of_mem hmem
        have hget : is.getD j 0 = is[j] := List.getD_eq_getElem _ _ hj
        have hnot : j ∉ js := fun hjs => hk (List.mem_map.mpr ⟨j, hjs, hget⟩)
        rw [← hget, ← hzshows.getElem? hj, hkept' j hnot, hshows.getElem? hj]
      · exact hzkept k hmem
    rw [store_lanes (load_lanes hload hy) hy', store_lanes hload hz, hsame] at h
    rw [Loc.pick, store_lanes hload hz']
    exact h
  | var slot => exact h
  | mem m o t => exact h
  | field p i => exact h

theorem root_pick (l : Loc) (js : List Nat) : (l.pick js).root = l.root := by
  cases l <;> rfl

theorem root_flat : ∀ l : Loc, l.flat.root = l.root
  | var _ | mem _ _ _ => rfl
  | field l _ => root_flat l
  | lanes l js => (root_pick l.flat js).trans (root_flat l)

theorem Typed.distinct_pick (hl : l.Typed scope (.vector s width)) (hd : l.Distinct)
    (hjs : Value.Picks s width.lanes js t) (hnodup : js.Nodup) : (l.pick js).Distinct := by
  cases hl with
  | lanes hp his =>
    obtain rfl := his.scalar_eq.symm
    exact ⟨his.nodup_comp hjs hd.1 hnodup, hd.2⟩
  | var h => exact ⟨hnodup, hd⟩
  | mem m o => exact ⟨hnodup, hd⟩
  | field hp hi => exact ⟨hnodup, hd⟩

theorem Typed.distinct_flat (hl : l.Typed scope t) (hd : l.Distinct) : l.flat.Distinct := by
  induction hl with
  | var h => exact trivial
  | mem m o t => exact trivial
  | field hp hi ih => exact ih hd
  | lanes hp his ih => exact hp.flat.distinct_pick (ih hd.2) his hd.1

theorem Typed.value?_flat (hl : l.Typed scope t) (hvars : vars.Proper scope) :
    (l.flat.load vars).value? st = (l.load vars).value? st := by
  induction hl with
  | var h => rfl
  | mem m o t => rfl
  | field hp hi ih => exact value?_field_congr ih
  | lanes hp his ih => exact (hp.flat.value?_pick his hvars).trans (value?_lanes_congr ih)

theorem Typed.load_flat (hl : l.Typed scope t) (hvars : vars.Proper scope)
    (h : l.load vars st = (.ok v, st)) : l.flat.load vars st = (.ok v, st) :=
  (quiet_load vars l.flat).run_of_value? ((hl.value?_flat hvars).trans (value?_of_run h))

/-- Storing to a location does what storing to it without lanes of lanes does. -/
theorem Typed.store_flat (hl : l.Typed scope t) (hd : l.Distinct) (hvars : vars.Proper scope)
    (hv : v.Proper t) (h : l.store vars v st = (.ok vars', st')) :
    l.flat.store vars v st = (.ok vars', st') := by
  induction hl generalizing v with
  | var hslot => exact h
  | mem m o t => exact h
  | @field l ts i t hp hi ih =>
    rcases hp.record_cases hvars st with hnone | ⟨vs, hload, hfits, hin⟩
    · exact (no_store_of_no_value hnone h).elim
    have hlt : i < vs.length := hfits.length_eq ▸ (List.getElem?_eq_some_iff.mp hi).1
    rw [store_field hload hlt] at h
    rw [Loc.flat, store_field (hp.load_flat hvars hload) hlt]
    exact ih hd (proper_set hfits hin hi hv) h
  | @lanes l is s width t hp his ih =>
    rcases hp.row_cases hvars st with hnone | ⟨x, hload, hrow, hin⟩
    · exact (no_store_of_no_value hnone h).elim
    obtain ⟨y, z, rfl, hz, hzrow, -, -⟩ := his.set hd.1 hrow hv.fits
    rw [store_lanes hload hz] at h
    refine hp.flat.store_pick (hp.distinct_flat hd.2) his hd.1 hvars hv.fits ?_
    rw [store_lanes (hp.load_flat hvars hload) hz]
    exact ih hd.2 (proper_row his hin hv hz hzrow) h

/-- The variables stay well formed. -/
theorem Typed.proper_stored (hl : l.Typed scope t) (hvars : vars.Proper scope) (hv : v.Proper t)
    (h : l.store vars v st = (.ok vars', st')) : vars'.Proper scope :=
  ⟨hvars.holds.mono ((hl.safe_store hvars.holds hv.fits).of_ok h),
    hl.ends_store hvars.within hv.within st vars' st' h⟩

/-- **A store leaves what is apart from its location**, when lanes of lanes are taken for lanes. -/
theorem Typed.value?_stored (hl : l.Typed scope t) (hd : l.Distinct) (hsmall : l.Small)
    (hvars : vars.Proper scope) (hv : v.Proper t) (h : l.store vars v st = (.ok vars', st')) {l' : Loc}
    {u : Ty} (hl' : l'.Typed scope u) (hap : l.flat.Apart l'.flat) :
    (l'.load vars').value? st' = (l'.load vars).value? st := by
  have hsmall' : l.flat.Small := fun m o u hroot => hsmall m o u (l.root_flat ▸ hroot)
  have hsame := hap.load_eq hl.flat (hl.distinct_flat hd) hsmall' hvars hv (hl.store_flat hd hvars hv h)
  rw [← hl'.value?_flat hvars, ← hl'.value?_flat (hl.proper_stored hvars hv h)]
  rw [value?, value?, hsame]

end Loc

end KernelForge
