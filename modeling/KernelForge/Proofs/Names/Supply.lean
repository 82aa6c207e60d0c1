/-
A supply of names never repeats itself, and never searches without end.

Here the requests to a supply are data, and answering them leaves a log.  The log alone tells which
names are taken, and so it tells every reply: the counters of the roots are no more than a note of
where the search for a free index may begin.  Roots share their names, as `a1` with the index 0 and
`a` with the index 10 do, and so it is the names that are compared throughout and never the indices.

The search is written once more as a loop with no bound on its tries.  It ends from every state, for
the names of one root are pairwise different and only so many names are taken.
-/
import KernelForge.Proofs.Basic
import KernelForge.Proofs.Names
import Mathlib.Data.List.Induction
import Mathlib.Data.List.Nodup

namespace KernelForge.Names

variable {ns : Names} {root : String} {names : List String}

/-! ### The search as a loop -/

/-- Makes an index the next one of a root. -/
def advance (ns : Names) (root : String) (index : Nat) : Names :=
  { ns with next := (root, index) :: ns.next.filter fun e => e.1 != root }

theorem nextIndex_advance (ns : Names) (root : String) (index : Nat) (other : String) :
    (ns.advance root index).nextIndex other = if other = root then index else ns.nextIndex other := by
  by_cases h : other = root
  · subst h
    simp [nextIndex, advance]
  · have hne : (other == root) = false := beq_eq_false_iff_ne.mpr h
    simp [nextIndex, advance, List.lookup_cons, hne, lookup_filter_ne, h]

theorem advance_advance (ns : Names) (root : String) (i j : Nat) :
    (ns.advance root i).advance root j = ns.advance root j := by
  simp [advance]

/-- Takes a name that is free. -/
def take (ns : Names) (name : String) : Names := { ns with taken := name :: ns.taken }

/-- One try: an index of the root is used up, and its name taken if it is free. -/
def attempt (ns : Names) (root : String) : Option String × Names :=
  let index := ns.nextIndex root
  let name := indexedName root index
  let (new, ns) := (ns.advance root (index + 1)).register name
  (if new then some name else none, ns)

theorem attempt_taken (h : indexedName root (ns.nextIndex root) ∈ ns.taken) :
    ns.attempt root = (none, ns.advance root (ns.nextIndex root + 1)) := by
  have htaken : (ns.advance root (ns.nextIndex root + 1)).isTaken
      (indexedName root (ns.nextIndex root)) = true := isTaken_iff.mpr h
  simp [attempt, register, htaken]

theorem attempt_free (h : indexedName root (ns.nextIndex root) ∉ ns.taken) :
    ns.attempt root = (some (indexedName root (ns.nextIndex root)),
      (ns.advance root (ns.nextIndex root + 1)).take (indexedName root (ns.nextIndex root))) := by
  have hfree : ¬(ns.advance root (ns.nextIndex root + 1)).isTaken
      (indexedName root (ns.nextIndex root)) = true := fun hmem => h (isTaken_iff.mp hmem)
  simp [attempt, register, hfree, take]

/-- A search comes to an end: it tries until a try succeeds.  One that goes on forever comes to none. -/
inductive Finds (root : String) : Names → String × Names → Prop where
  | found {ns ns' : Names} {name : String} (h : ns.attempt root = (some name, ns')) : Finds root ns (name, ns')
  | again {ns ns' : Names} {r : String × Names} (h : ns.attempt root = (none, ns')) (hrest : Finds root ns' r) :
      Finds root ns r

/-- A search comes to one end at most. -/
theorem Finds.unique {r r' : String × Names} (h : Finds root ns r) (h' : Finds root ns r') : r = r' := by
  induction h with
  | found hfound =>
    cases h' with
    | found hfound' => cases hfound.symm.trans hfound'; rfl
    | again hagain' => cases hfound.symm.trans hagain'
  | again hagain hrest ih =>
    cases h' with
    | found hfound' => cases hagain.symm.trans hfound'
    | again hagain' hrest' =>
      cases hagain.symm.trans hagain'
      exact ih hrest'

/-- The search ends at the first name that is free. -/
theorem finds_of_free (n : Nat) (hskipped : ∀ j < n, indexedName root (ns.nextIndex root + j) ∈ ns.taken)
    (hfree : indexedName root (ns.nextIndex root + n) ∉ ns.taken) :
    Finds root ns (indexedName root (ns.nextIndex root + n),
      (ns.advance root (ns.nextIndex root + n + 1)).take (indexedName root (ns.nextIndex root + n))) := by
  induction n generalizing ns with
  | zero => exact .found (attempt_free hfree)
  | succ n ih =>
    have hnext : (ns.advance root (ns.nextIndex root + 1)).nextIndex root = ns.nextIndex root + 1 := by
      rw [nextIndex_advance, if_pos rfl]
    have hshift : ∀ j, ns.nextIndex root + 1 + j = ns.nextIndex root + (j + 1) := fun j => by omega
    have hrest := @ih (ns.advance root (ns.nextIndex root + 1))
    rw [hnext, hshift, advance_advance] at hrest
    refine .again (attempt_taken (hskipped 0 (by omega))) (hrest (fun j hj => ?_) hfree)
    rw [hshift]
    exact hskipped (j + 1) (by omega)

/-- What is handed out with an index comes after names that are taken, and is free itself. -/
theorem exists_indexed_eq (ns : Names) (root : String) :
    ∃ n, ns.indexed root = (indexedName root (ns.nextIndex root + n),
        (ns.advance root (ns.nextIndex root + n + 1)).take (indexedName root (ns.nextIndex root + n))) ∧
      (∀ j < n, indexedName root (ns.nextIndex root + j) ∈ ns.taken) ∧
      indexedName root (ns.nextIndex root + n) ∉ ns.taken := by
  obtain ⟨n, heq, hskipped, hfree⟩ := exists_indexed ns root
  refine ⟨n, ?_, hskipped, hfree⟩
  unfold indexed
  rw [heq]
  rfl

/-- **The search ends**, from any state, and what it ends with is handed out. -/
theorem finds_iff {r : String × Names} : Finds root ns r ↔ r = ns.indexed root := by
  obtain ⟨n, heq, hskipped, hfree⟩ := exists_indexed_eq ns root
  have hfinds : Finds root ns (ns.indexed root) := by
    rw [heq]
    exact finds_of_free n hskipped hfree
  exact ⟨fun h => h.unique hfinds, fun h => h ▸ hfinds⟩

/-! ### Requests and their log -/

/-- What a supply is asked for. -/
inductive Request where
  | register (name : String)
  | fresh (root : String)
  | indexed (root : String)
deriving Repr, DecidableEq

/-- What comes of a request: whether the name is new, or the name that is handed out for a root. -/
inductive Reply where
  | registered (name : String) (new : Bool)
  | fresh (root name : String)
  | indexed (root name : String)
deriving Repr, DecidableEq

namespace Reply

def request : Reply → Request
  | registered name _ => .register name
  | fresh root _ => .fresh root
  | indexed root _ => .indexed root

/-- The name that is taken from now on. -/
def name : Reply → String
  | registered name _ | fresh _ name | indexed _ name => name

/-- The name that is handed out. -/
def handed? : Reply → Option String
  | registered _ _ => none
  | fresh _ name | indexed _ name => some name

theorem name_of_handed? {r : Reply} {name : String} (h : r.handed? = some name) : r.name = name := by
  cases r with
  | registered name new => cases h
  | fresh root name => exact Option.some.inj h
  | indexed root name => exact Option.some.inj h

end Reply

/-- Answers one request. -/
def answer (ns : Names) : Request → Reply × Names
  | .register name => let (new, ns) := ns.register name; (.registered name new, ns)
  | .fresh root => let (name, ns) := ns.fresh root; (.fresh root name, ns)
  | .indexed root => let (name, ns) := ns.indexed root; (.indexed root name, ns)

/-- Answers requests in their order. -/
def answerAll (ns : Names) : List Request → List Reply × Names
  | [] => ([], ns)
  | request :: rest =>
    let (reply, ns) := ns.answer request
    let (log, ns) := ns.answerAll rest
    (reply :: log, ns)

theorem answerAll_cons (request : Request) (rest : List Request) :
    ns.answerAll (request :: rest) = ((ns.answer request).1 :: ((ns.answer request).2.answerAll rest).1,
      ((ns.answer request).2.answerAll rest).2) := rfl

/-- The first name of a root with an index that is none of the given ones. -/
def FirstFree (names : List String) (root name : String) : Prop :=
  ∃ index, name = indexedName root index ∧ name ∉ names ∧ ∀ j < index, indexedName root j ∈ names

/-- What a reply is once some names are taken. -/
def Reply.Fits (names : List String) : Reply → Prop
  | .registered name new => new = true ↔ name ∉ names
  | .fresh root name => (name = root ↔ root ∉ names) ∧ (root ∈ names → FirstFree names root name)
  | .indexed root name => FirstFree names root name

theorem Reply.Fits.new {r : Reply} {name : String} (h : r.Fits names) (hname : r.handed? = some name) :
    name ∉ names := by
  cases r with
  | registered name new => cases hname
  | fresh root found =>
    cases hname
    by_cases hroot : root ∈ names
    · obtain ⟨index, -, hnew, -⟩ := h.2 hroot
      exact hnew
    · rwa [h.1.mpr hroot]
  | indexed root found =>
    cases hname
    obtain ⟨index, -, hnew, -⟩ := h
    exact hnew

/-! ### What one request keeps -/

/-- A state in which some names have come up. -/
structure Tracks (ns : Names) (names : List String) : Prop where
  /-- They are the names that are taken. -/
  taken : ∀ name, name ∈ ns.taken ↔ name ∈ names
  /-- The indices below that of a root are used up. -/
  used : ∀ root, ∀ j < ns.nextIndex root, indexedName root j ∈ ns.taken
  length_le : ns.taken.length ≤ names.length

namespace Tracks

theorem start : Tracks {} [] where
  taken name := Iff.rfl
  used root j hj := by simp [nextIndex] at hj
  length_le := Nat.le_refl 0

/-- No counter is ahead of the number of the names, which are pairwise different for one root. -/
theorem nextIndex_le (h : Tracks ns names) (root : String) : ns.nextIndex root ≤ names.length := by
  have hsub : trial root 0 (ns.nextIndex root) ⊆ ns.taken := by
    intro x hx
    obtain ⟨j, hj, rfl⟩ := List.mem_map.mp hx
    rw [Nat.zero_add]
    exact h.used root j (List.mem_range.mp hj)
  have hle := (nodup_trial root 0 (ns.nextIndex root)).length_le_of_subset hsub
  rw [trial, List.length_map, List.length_range] at hle
  exact Nat.le_trans hle h.length_le

/-- A name comes up that is taken. -/
theorem again {name : String} (h : Tracks ns names) (hname : name ∈ names) : Tracks ns (names ++ [name]) where
  taken other := by
    rw [h.taken, List.mem_append, List.mem_singleton]
    exact ⟨.inl, fun hor => hor.elim id fun heq => heq ▸ hname⟩
  used := h.used
  length_le := by
    have hle := h.length_le
    rw [List.length_append]
    omega

/-- A name comes up that gets taken. -/
theorem take (h : Tracks ns names) (name : String) : Tracks (ns.take name) (names ++ [name]) where
  taken other := by
    rw [Names.take, List.mem_cons, List.mem_append, List.mem_singleton, h.taken, or_comm]
  used root j hj := List.mem_cons_of_mem _ (h.used root j hj)
  length_le := by
    have hle := h.length_le
    rw [Names.take, List.length_cons, List.length_append, List.length_singleton]
    omega

/-- An index is handed out, which uses up those before it. -/
theorem indexed (h : Tracks ns names) (root : String) :
    FirstFree names root (ns.indexed root).1 ∧
      Tracks (ns.indexed root).2 (names ++ [(ns.indexed root).1]) := by
  obtain ⟨n, heq, hskipped, hfree⟩ := exists_indexed_eq ns root
  rw [heq]
  have hbelow : ∀ j < ns.nextIndex root + n, indexedName root j ∈ ns.taken := by
    intro j hj
    by_cases hold : j < ns.nextIndex root
    · exact h.used root j hold
    · have hj' := hskipped (j - ns.nextIndex root) (by omega)
      rwa [show ns.nextIndex root + (j - ns.nextIndex root) = j by omega] at hj'
  have htaken := (h.take (indexedName root (ns.nextIndex root + n))).taken
  refine ⟨⟨ns.nextIndex root + n, rfl, fun hmem => hfree ((h.taken _).mpr hmem),
    fun j hj => (h.taken _).mp (hbelow j hj)⟩, htaken, fun other j hj => ?_,
    (h.take (indexedName root (ns.nextIndex root + n))).length_le⟩
  rw [show (Names.take _ _).nextIndex other = (ns.advance root _).nextIndex other from rfl,
    nextIndex_advance] at hj
  split at hj
  · rename_i hother
    subst hother
    rcases Nat.lt_succ_iff_lt_or_eq.mp hj with hlt | heq
    · exact List.mem_cons_of_mem _ (hbelow j hlt)
    · exact heq ▸ List.mem_cons_self
  · exact List.mem_cons_of_mem _ (h.used other j hj)

/-- **One request**: its reply can be told from the names that have come up, and they stay known. -/
theorem answer (h : Tracks ns names) (request : Request) :
    (ns.answer request).1.request = request ∧ (ns.answer request).1.Fits names ∧
      Tracks (ns.answer request).2 (names ++ [(ns.answer request).1.name]) := by
  cases request with
  | register name =>
    rw [Names.answer, register]
    by_cases hname : name ∈ names
    · rw [if_pos (isTaken_iff.mpr ((h.taken name).mpr hname))]
      exact ⟨rfl, ⟨fun htrue => absurd htrue Bool.false_ne_true, fun hnew => absurd hname hnew⟩, h.again hname⟩
    · rw [if_neg fun htaken => hname ((h.taken name).mp (isTaken_iff.mp htaken))]
      exact ⟨rfl, ⟨fun _ => hname, fun _ => rfl⟩, h.take name⟩
  | fresh root =>
    rw [Names.answer, fresh]
    by_cases hroot : root ∈ names
    · rw [if_pos (isTaken_iff.mpr ((h.taken root).mpr hroot))]
      obtain ⟨hfirst, htracks⟩ := h.indexed root
      have hne : (ns.indexed root).1 ≠ root := by
        obtain ⟨index, -, hnew, -⟩ := hfirst
        exact fun heq => hnew (heq.symm ▸ hroot)
      exact ⟨rfl, ⟨⟨fun heq => absurd heq hne, fun hnew => absurd hroot hnew⟩, fun _ => hfirst⟩, htracks⟩
    · rw [if_neg fun htaken => hroot ((h.taken root).mp (isTaken_iff.mp htaken))]
      exact ⟨rfl, ⟨⟨fun _ => hroot, fun _ => rfl⟩, fun hmem => absurd hmem hroot⟩, h.take root⟩
  | indexed root => exact ⟨rfl, h.indexed root⟩

/-- Any number of requests. -/
theorem answerAll (h : Tracks ns names) (requests : List Request) :
    (ns.answerAll requests).1.map Reply.request = requests ∧
      (∀ earlier reply later, (ns.answerAll requests).1 = earlier ++ reply :: later →
        reply.Fits (names ++ earlier.map Reply.name)) ∧
      Tracks (ns.answerAll requests).2 (names ++ (ns.answerAll requests).1.map Reply.name) := by
  induction requests generalizing ns names with
  | nil =>
    refine ⟨rfl, fun earlier reply later hlog => ?_, ?_⟩
    · cases earlier <;> cases hlog
    · rwa [Names.answerAll, List.map_nil, List.append_nil]
  | cons request rest ih =>
    obtain ⟨hrequest, hfits, hnext⟩ := h.answer request
    obtain ⟨hrequests, hrest, hend⟩ := ih hnext
    rw [answerAll_cons]
    refine ⟨by rw [List.map_cons, hrequest, hrequests], fun earlier reply later hlog => ?_, ?_⟩
    · cases earlier with
      | nil =>
        obtain ⟨rfl, -⟩ := List.cons.inj hlog
        rwa [List.map_nil, List.append_nil]
      | cons first earlier =>
        obtain ⟨rfl, htail⟩ := List.cons.inj hlog
        have hreply := hrest earlier reply later htail
        rwa [List.append_assoc] at hreply
    · rwa [List.append_assoc] at hend

end Tracks

/-! ### What a supply promises -/

/-- A relation holds pairwise if it holds between each entry and all before it. -/
theorem pairwise_of_earlier {α : Type} {R : α → α → Prop} {l : List α}
    (h : ∀ earlier x later, l = earlier ++ x :: later → ∀ y ∈ earlier, R y x) : l.Pairwise R := by
  induction l using List.reverseRecOn with
  | nil => exact .nil
  | append_singleton l x ih =>
    refine List.pairwise_append.mpr ⟨ih fun earlier x' later hl => ?_, List.pairwise_singleton R x, ?_⟩
    · refine h earlier x' (later ++ [x]) ?_
      rw [hl, List.append_assoc, List.cons_append]
    · intro y hy x' hx'
      rw [List.mem_singleton.mp hx']
      exact h l x [] rfl y hy

/-- What may be relied on when some requests have been answered. -/
structure Faithful (requests : List Request) (log : List Reply) (ns : Names) : Prop where
  /-- Each request has its reply. -/
  answered : log.map Reply.request = requests
  /-- Each reply can be told from the names that came up before. -/
  fits : ∀ earlier reply later, log = earlier ++ reply :: later → reply.Fits (earlier.map Reply.name)
  /-- No name is handed out that came up before, be it registered or handed out. -/
  new : log.Pairwise fun earlier later => ∀ name, later.handed? = some name → earlier.name ≠ name
  /-- No name is handed out twice. -/
  distinct : (log.filterMap Reply.handed?).Nodup
  /-- The names that came up are taken, and no others. -/
  taken : ∀ name, ns.isTaken name = true ↔ name ∈ log.map Reply.name
  /-- The next search for an index ends as well, whatever the root. -/
  ends : ∀ root r, Finds root ns r ↔ r = ns.indexed root
  /-- No counter is ahead of the number of requests. -/
  bounded : ∀ root, ns.nextIndex root ≤ requests.length

/-- **No name is handed out twice**, whatever a new supply is asked for. -/
theorem names_handed_out_once (requests : List Request) :
    Faithful requests (answerAll {} requests).1 (answerAll {} requests).2 := by
  obtain ⟨hanswered, hfits, htracks⟩ := Tracks.start.answerAll requests
  have hnew : (answerAll {} requests).1.Pairwise
      fun earlier later => ∀ name, later.handed? = some name → earlier.name ≠ name := by
    refine pairwise_of_earlier fun earlier later rest hlog e he name hname heq => ?_
    exact (hfits earlier later rest hlog).new hname (heq ▸ List.mem_map_of_mem he)
  refine ⟨hanswered, hfits, hnew, ?_, fun name => isTaken_iff.trans (htracks.taken name),
    fun _ _ => finds_iff, fun root => ?_⟩
  · refine List.pairwise_filterMap.mpr (hnew.imp fun hne name hname name' hname' => ?_)
    rw [← Reply.name_of_handed? hname]
    exact hne name' hname'
  · have hle := htracks.nextIndex_le root
    have hlength := congrArg List.length hanswered
    rw [List.length_map] at hlength
    rwa [List.nil_append, List.length_map, hlength] at hle

/-- Roots that run into each other's names: the index 0 of `a1` is the index 10 of `a`. -/
example :
    (answerAll {} [.fresh "a1", .fresh "a1", .fresh "a10", .register "a0", .indexed "a",
      .indexed "a"]).1.map Reply.name = ["a1", "a10", "a100", "a0", "a2", "a3"] := by
  decide +kernel

end KernelForge.Names
