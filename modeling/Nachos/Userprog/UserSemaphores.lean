import Nachos.Userprog.SemTable

/-!
# How many `SC_Down` calls a named semaphore admits

`Semaphore::P` waits while `value == 0`, so it protects a semaphore only as long as its value is
not negative. Two things make it negative: `STable::Create` accepts any `int`, and `value++` in
`V` overflows at `INT_MAX`. `admits_iff` says that there is nothing else: in a run without
these two steps, and in no other, every semaphore of the table keeps a non-negative value and
has let through at most its initial value plus the number of `SC_Up` calls.

The count behind it is that the units taken from a semaphore of the table were taken by
`SC_Down` calls that have returned or are about to (`System.passed`).
-/

namespace Nachos.Userprog.SemTable

open Function (update update_of_ne update_self)
open Threads (Kernel SemId Tid Inv View)
open Bytes (Str)

/-- The table's promise: its semaphores are not negative and admit no more than their count. -/
def Admits (s : System) : Prop :=
  ∀ i e, s.table.At i e →
    0 ≤ (s.kernel.sems e.sem).value ∧
      (s.downs e.sem : Int) ≤ (s.kernel.sems e.sem).init + s.ups e.sem

/-- The steps that keep the promise: `SC_CreateSemaphore` is refused or given a non-negative
value, and `SC_Up` finds no semaphore whose value is `INT_MAX`. -/
def good (s : System) : Label → Prop
  | .createSemaphore name semval => s.table.Present name ∨ s.table.Full ∨ 0 ≤ semval.toInt
  | .up name => ∀ e, s.table.lookup name = some e → (s.kernel.sems e.sem).value ≠ 2 ^ 31 - 1
  | _ => True

/-! ## Where the threads are -/

/-- The semaphore of a call. -/
def SemCall.sem : SemCall → SemId
  | .down sem | .up sem => sem

/-- The call of the table that a thread is in, and the semaphore in whose `P` it is. -/
def System.place (s : System) (t : Tid) : Option SemCall × Option SemId :=
  (s.pending t, s.kernel.view.waits t)

/-- Who is in the `P` of a semaphore of the table is in `SC_Down` on it. -/
structure Fits (tab : STable) (x : Option SemCall × Option SemId) : Prop where
  waiting : ∀ sem, x.2 = some sem → tab.owns sem = true → x.1 = some (.down sem)
  calling : ∀ c, x.1 = some c → tab.owns c.sem = true ∧ ∀ sem, x.2 = some sem → c = .down sem

/-- One for a thread whose `SC_Down` has taken its unit and not returned yet. -/
def passedBy (sem : SemId) (x : Option SemCall × Option SemId) : Nat :=
  if x = (some (.down sem), none) then 1 else 0

/-- The number of `SC_Down` calls on `sem` that have taken a unit and not returned yet. -/
def System.passed (s : System) (sem : SemId) : Nat :=
  Sums.total (passedBy sem) s.place s.kernel.numThreads

/-- The books of one semaphore of the table. -/
structure Counted (s : System) (sem : SemId) : Prop where
  ups : s.ups sem = (s.kernel.sems sem).completedV
  downs : (s.kernel.sems sem).completedP = s.downs sem + s.passed sem
  value : (s.kernel.sems sem).value =
    (s.kernel.sems sem).init + (s.kernel.sems sem).completedV - (s.kernel.sems sem).completedP
  range : 0 ≤ (s.kernel.sems sem).value ∧ (s.kernel.sems sem).value < 2 ^ 31

/-- The invariant of the runs that keep the promise. -/
structure Ledger (s : System) : Prop where
  idle : ∀ t, s.kernel.numThreads ≤ t → s.pending t = none
  fits : ∀ t, Fits s.table (s.place t)
  clean : ∀ sem, s.table.owns sem = false → s.downs sem = 0 ∧ s.ups sem = 0
  counted : ∀ {i e}, s.table.At i e → Counted s e.sem

theorem Ledger.admits {s : System} (h : Ledger s) : Admits s := by
  intro i e hat
  have hc := h.counted hat
  have hvalue := hc.value
  have hdowns := hc.downs
  have hups := hc.ups
  refine ⟨hc.range.1, ?_⟩
  have := hc.range.1
  omega

section Moves

variable {s s' : System} {sem : SemId}

/-- A step that moves only thread `t`, to `x`. -/
structure Moves (s s' : System) (t : Tid) (x : Option SemCall × Option SemId) : Prop where
  lt : t < s.kernel.numThreads
  numThreads : s'.kernel.numThreads = s.kernel.numThreads
  table : s'.table = s.table
  place : s'.place = update s.place t x

theorem place_update {t : Tid} {a : Option SemCall} {b : Option SemId}
    (hp : s'.pending = update s.pending t a)
    (hw : s'.kernel.view.waits = update s.kernel.view.waits t b) :
    s'.place = update s.place t (a, b) := by
  ext1 u
  by_cases hu : u = t
  · subst hu
    simp [System.place, hp, hw]
  · simp [System.place, hp, hw, hu]

theorem Moves.passed {t : Tid} {x : Option SemCall × Option SemId} (h : Moves s s' t x)
    (sem : SemId) : s'.passed sem + passedBy sem (s.place t) = s.passed sem + passedBy sem x := by
  unfold System.passed
  rw [h.place, h.numThreads]
  exact Sums.total_update h.lt x

theorem Moves.idle {t : Tid} {x : Option SemCall × Option SemId} (h : Moves s s' t x)
    (hl : Ledger s) {u : Tid} (hu : s'.kernel.numThreads ≤ u) : s'.pending u = none := by
  rw [h.numThreads] at hu
  have hne : u ≠ t := by
    rintro rfl
    exact Nat.not_lt.mpr hu h.lt
  have hplace := congrFun h.place u
  rw [update_of_ne hne] at hplace
  exact (congrArg Prod.fst hplace).trans (hl.idle u hu)

theorem Moves.fits {t : Tid} {x : Option SemCall × Option SemId} (h : Moves s s' t x)
    (hl : Ledger s) (hx : Fits s.table x) (u : Tid) : Fits s'.table (s'.place u) := by
  rw [h.table, h.place]
  by_cases hu : u = t
  · subst hu
    rwa [update_self]
  · rw [update_of_ne hu]
    exact hl.fits u

/-- The books of a semaphore that a step leaves alone. -/
theorem Counted.of_same (h : Counted s sem) (hups : s'.ups sem = s.ups sem)
    (hdowns : s'.downs sem = s.downs sem) (hpassed : s'.passed sem = s.passed sem)
    (hsem : (s'.kernel.sems sem).bare = (s.kernel.sems sem).bare) : Counted s' sem := by
  obtain ⟨hv, hi, hp, hcv⟩ := Threads.Semaphore.bare_eq_bare.mp hsem
  refine ⟨?_, ?_, ?_, ?_⟩
  · rw [hups, hcv, h.ups]
  · rw [hp, hdowns, hpassed, h.downs]
  · rw [hv, hi, hcv, hp, h.value]
  · rw [hv]
    exact h.range

/-- The books after a `V` below `INT_MAX`. -/
theorem Counted.give (h : Counted s sem) (hmax : (s.kernel.sems sem).value ≠ 2 ^ 31 - 1)
    (hups : s'.ups sem = s.ups sem + 1) (hdowns : s'.downs sem = s.downs sem)
    (hpassed : s'.passed sem = s.passed sem)
    (hsem : (s'.kernel.sems sem).bare = (s.kernel.sems sem).give.bare) : Counted s' sem := by
  obtain ⟨hv, hi, hp, hcv⟩ := Threads.Semaphore.bare_eq_bare.mp hsem
  have hrange := h.range
  have hwrap := Threads.wrap32_of_range (n := (s.kernel.sems sem).value + 1) (by omega) (by omega)
  have hvalue := h.value
  simp only [Threads.Semaphore.give, hwrap] at hv hi hp hcv
  refine ⟨?_, ?_, ?_, ?_⟩
  · rw [hups, hcv, h.ups]
  · rw [hp, hdowns, hpassed, h.downs]
  · rw [hv, hi, hcv, hp]
    push_cast
    omega
  · omega

/-- The books after a unit was taken. -/
theorem Counted.take (h : Counted s sem) (hpos : (s.kernel.sems sem).value ≠ 0)
    (hups : s'.ups sem = s.ups sem) (hdowns : s'.downs sem = s.downs sem)
    (hpassed : s'.passed sem = s.passed sem + 1)
    (hsem : (s'.kernel.sems sem).bare = (s.kernel.sems sem).take.bare) : Counted s' sem := by
  obtain ⟨hv, hi, hp, hcv⟩ := Threads.Semaphore.bare_eq_bare.mp hsem
  have hrange := h.range
  have hwrap := Threads.wrap32_of_range (n := (s.kernel.sems sem).value - 1) (by omega) (by omega)
  have hvalue := h.value
  have hold := h.downs
  simp only [Threads.Semaphore.take, hwrap] at hv hi hp hcv
  refine ⟨?_, ?_, ?_, ?_⟩
  · rw [hups, hcv, h.ups]
  · rw [hp, hdowns, hpassed, hold]
    omega
  · rw [hv, hi, hcv, hp]
    push_cast
    omega
  · omega

end Moves

/-! ## The steps -/

section Steps

variable {s : System}

/-- A thread that runs code of its own is in no `P`. -/
theorem waits_of_inCode (h : s.kernel.inCode = true) :
    s.kernel.view.waits s.kernel.currentThread = none := by
  show s.kernel.current.resume.waitsOn = none
  rw [(Threads.inCode_iff.mp h).2]
  rfl

theorem place_of_idleCode (h : s.idleCode = true) :
    s.place s.kernel.currentThread = (none, none) := by
  obtain ⟨-, hc, hp⟩ := idleCode_iff.mp h
  simp [System.place, hp, waits_of_inCode hc]

theorem current_lt (h : SysInv s) (hm : s.kernel.mode = .running) :
    s.kernel.currentThread < s.kernel.numThreads := h.kernel.current_lt hm

theorem fits_none (tab : STable) {b : Option SemId} (hb : ∀ sem, b = some sem → tab.owns sem = false) :
    Fits tab (none, b) := by
  refine ⟨fun sem hsem hown => ?_, fun c hc => ?_⟩
  · rw [hb sem hsem] at hown
    cases hown
  · cases hc

theorem bare_update (k : Kernel) {sem sem' : SemId} (hne : sem' ≠ sem) (v : Threads.Semaphore) :
    update k.view.sems sem v sem' = (k.sems sem').bare := update_of_ne hne _ _

/-- `SC_Up` on a semaphore below `INT_MAX`. -/
theorem ledger_signal (h : SysInv s) (hl : Ledger s) {name : Str} {e : Entry}
    (hc : s.idleCode = true) (hlook : s.table.lookup name = some e)
    (hmax : (s.kernel.sems e.sem).value ≠ 2 ^ 31 - 1) : Ledger (s.signal name).2 := by
  have hown := lookup_owns hlook
  have hview := Threads.view_V (k := s.kernel) e.sem
  have hcode := (idleCode_iff.mp hc).2.1
  have hwaits := waits_of_inCode hcode
  simp only [System.signal, hlook]
  set s' : System := { s with
    kernel := s.kernel.V e.sem
    pending := update s.pending s.kernel.currentThread (some (.up e.sem))
    ups := update s.ups e.sem (s.ups e.sem + 1) } with hs'
  have hmove : Moves s s' s.kernel.currentThread (some (.up e.sem), none) := by
    refine ⟨current_lt h (inCode_of_idleCode hc), congrArg View.numThreads hview, rfl,
      place_update rfl ?_⟩
    rw [congrArg View.waits hview, ← hwaits]
    exact (Function.update_eq_self _ _).symm
  have hpassed : ∀ sem, s'.passed sem = s.passed sem := by
    intro sem
    have := hmove.passed sem
    rw [place_of_idleCode hc] at this
    simpa [passedBy] using this
  refine ⟨fun u => hmove.idle hl, hmove.fits hl ⟨?_, ?_⟩, ?_, ?_⟩
  · intro sem hsem
    cases hsem
  · intro c hc'
    cases hc'
    exact ⟨hown, fun sem hsem => by cases hsem⟩
  · intro sem hsem
    have hne : sem ≠ e.sem := by
      rintro rfl
      rw [show s'.table = s.table from rfl, hown] at hsem
      cases hsem
    exact ⟨(hl.clean sem hsem).1, by simpa [hs', hne] using (hl.clean sem hsem).2⟩
  · intro i e' hat
    by_cases hee : e'.sem = e.sem
    · have hold := hl.counted hat
      rw [hee] at hold ⊢
      refine hold.give hmax (by simp [hs']) rfl (hpassed _) ?_
      exact (congrFun (congrArg View.sems hview) e.sem).trans (update_self _ _ _)
    · refine (hl.counted hat).of_same (by simp [hs', hee]) rfl (hpassed _) ?_
      exact (congrFun (congrArg View.sems hview) e'.sem).trans (bare_update s.kernel hee _)

/-- A test of `value` in the `P` of a semaphore of the table, by a thread that is in `SC_Down` on
it afterwards. -/
theorem ledger_test {s' : System} (hl : Ledger s) {sem : SemId} (hown : s.table.owns sem = true)
    (hlt : s.kernel.currentThread < s.kernel.numThreads)
    (hplace : s.place s.kernel.currentThread = (none, none) ∨
      s.place s.kernel.currentThread = (some (.down sem), some sem))
    (hview : s'.kernel.view = s.kernel.view.apply (s.kernel.testEffect sem))
    (hpend : s'.pending = update s.pending s.kernel.currentThread (some (.down sem)))
    (htab : s'.table = s.table) (hdowns : s'.downs = s.downs) (hups : s'.ups = s.ups) :
    Ledger s' := by
  have hzero : ∀ sem', passedBy sem' (s.place s.kernel.currentThread) = 0 := by
    intro sem'
    rcases hplace with hp | hp <;> simp [hp, passedBy]
  unfold Kernel.testEffect at hview
  split at hview
  · -- the thread sleeps
    have hmove : Moves s s' s.kernel.currentThread (some (.down sem), some sem) :=
      ⟨hlt, congrArg View.numThreads hview, htab, place_update hpend (congrArg View.waits hview)⟩
    have hpassed : ∀ sem', s'.passed sem' = s.passed sem' := by
      intro sem'
      have := hmove.passed sem'
      rw [hzero] at this
      simpa [passedBy] using this
    refine ⟨fun u => hmove.idle hl, hmove.fits hl ⟨?_, ?_⟩, ?_, ?_⟩
    · intro sem' hsem _
      cases hsem
      rfl
    · intro c hc
      cases hc
      exact ⟨hown, fun sem' hsem => by cases hsem; rfl⟩
    · rw [htab, hdowns, hups]
      exact hl.clean
    · intro i e hat
      rw [htab] at hat
      exact (hl.counted hat).of_same (by rw [hups]) (by rw [hdowns]) (hpassed _)
        (congrFun (congrArg View.sems hview) e.sem)
  · -- it takes a unit
    rename_i hvalue
    have hmove : Moves s s' s.kernel.currentThread (some (.down sem), none) :=
      ⟨hlt, congrArg View.numThreads hview, htab, place_update hpend (congrArg View.waits hview)⟩
    have hpassed : ∀ sem', s'.passed sem' = s.passed sem' + if sem' = sem then 1 else 0 := by
      intro sem'
      have := hmove.passed sem'
      rw [hzero] at this
      by_cases hss : sem' = sem
      · simpa [passedBy, hss] using this
      · simpa [passedBy, hss, Ne.symm hss] using this
    refine ⟨fun u => hmove.idle hl, hmove.fits hl ⟨?_, ?_⟩, ?_, ?_⟩
    · intro sem' hsem
      cases hsem
    · intro c hc
      cases hc
      exact ⟨hown, fun sem' hsem => by cases hsem⟩
    · rw [htab, hdowns, hups]
      exact hl.clean
    · intro i e hat
      rw [htab] at hat
      by_cases hee : e.sem = sem
      · have hold := hl.counted hat
        rw [hee] at hold ⊢
        refine hold.take hvalue (by rw [hups]) (by rw [hdowns]) (by rw [hpassed, if_pos rfl]) ?_
        exact (congrFun (congrArg View.sems hview) sem).trans (update_self _ _ _)
      · refine (hl.counted hat).of_same (by rw [hups]) (by rw [hdowns])
          (by rw [hpassed, if_neg hee, Nat.add_zero]) ?_
        exact (congrFun (congrArg View.sems hview) e.sem).trans (bare_update s.kernel hee _)

/-- `SC_Down`. -/
theorem ledger_wait (h : SysInv s) (hl : Ledger s) {name : Str} {e : Entry}
    (hc : s.idleCode = true) (hlook : s.table.lookup name = some e) : Ledger (s.wait name).2 := by
  simp only [System.wait, hlook]
  exact ledger_test hl (lookup_owns hlook) (current_lt h (inCode_of_idleCode hc))
    (Or.inl (place_of_idleCode hc)) (Threads.view_P e.sem) rfl rfl rfl rfl

/-- The return from `SC_Up` or `SC_Down`. -/
theorem ledger_finishCall (h : SysInv s) (hl : Ledger s) {c : SemCall}
    (hcode : s.kernel.inCode = true) (hp : s.pending s.kernel.currentThread = some c) :
    Ledger (s.finishCall c) := by
  have hwaits := waits_of_inCode hcode
  have hplace : s.place s.kernel.currentThread = (some c, none) := by simp [System.place, hp, hwaits]
  have hmove : Moves s (s.finishCall c) s.kernel.currentThread (none, none) := by
    refine ⟨current_lt h (Threads.inCode_iff.mp hcode).1, rfl, rfl, place_update rfl ?_⟩
    rw [← hwaits]
    exact (Function.update_eq_self _ _).symm
  have hpassed := fun sem => hmove.passed sem
  rw [hplace] at hpassed
  refine ⟨fun u => hmove.idle hl, hmove.fits hl (fits_none _ fun sem hsem => by cases hsem), ?_, ?_⟩
  · intro sem hsem
    have hold := hl.clean sem hsem
    cases c with
    | up _ => exact hold
    | down sem' =>
      have hown := ((hl.fits s.kernel.currentThread).calling (.down sem') hp).1
      have hne : sem ≠ sem' := by
        rintro rfl
        rw [show (s.finishCall (.down sem)).table = s.table from rfl, show s.table.owns sem = true
          from hown] at hsem
        cases hsem
      exact ⟨by simpa [System.finishCall, hne] using hold.1, hold.2⟩
  · intro i e hat
    have hold := hl.counted (i := i) (e := e) hat
    have hpass := hpassed e.sem
    cases c with
    | up _ => exact hold.of_same rfl rfl (by simpa [passedBy] using hpass) rfl
    | down sem' =>
      by_cases hee : e.sem = sem'
      · subst hee
        have hnow : (s.finishCall (.down e.sem)).passed e.sem + 1 = s.passed e.sem := by
          simpa [passedBy] using hpass
        have hcount : (s.finishCall (.down e.sem)).downs e.sem = s.downs e.sem + 1 := by
          simp [System.finishCall]
        refine ⟨hold.ups, ?_, hold.value, hold.range⟩
        have := hold.downs
        show (s.kernel.sems e.sem).completedP = _
        omega
      · refine hold.of_same rfl (by simp [System.finishCall, hee]) ?_ rfl
        simpa [passedBy, Ne.symm hee] using hpass

/-- A step of the thread system that leaves the semaphores of the table alone, and in which only
threads that are in no call of the table enter or leave a `P`. -/
theorem ledger_foreign (hl : Ledger s) {k' : Kernel}
    (hn : k'.numThreads = s.kernel.numThreads)
    (hwaits : ∀ t, k'.view.waits t = s.kernel.view.waits t ∨ s.pending t = none ∧
      ∀ sem, k'.view.waits t = some sem → s.table.owns sem = false)
    (hsems : ∀ sem, s.table.owns sem = true → k'.view.sems sem = s.kernel.view.sems sem) :
    Ledger { s with kernel := k' } := by
  have hpassed : ∀ sem, System.passed { s with kernel := k' } sem = s.passed sem := by
    intro sem
    unfold System.passed
    rw [show System.kernel { s with kernel := k' } = k' from rfl, hn]
    refine Sums.total_congr fun t _ => ?_
    rcases hwaits t with hw | ⟨hp, -⟩
    · simp [System.place, hw]
    · simp [System.place, hp, passedBy]
  refine ⟨fun t ht => hl.idle t (by rw [← hn]; exact ht), fun t => ?_, hl.clean, fun {i e} hat => ?_⟩
  · rcases hwaits t with hw | ⟨hp, hfree⟩
    · have hplace : System.place { s with kernel := k' } t = s.place t := by simp [System.place, hw]
      rw [hplace]
      exact hl.fits t
    · have hplace : System.place { s with kernel := k' } t = (none, k'.view.waits t) := by
        simp [System.place, hp]
      rw [hplace]
      exact fits_none _ hfree
  · exact (hl.counted hat).of_same rfl rfl (hpassed _) (hsems _ (owns_iff.mpr ⟨i, e, hat, rfl⟩))

/-- A new thread is in no call. -/
theorem ledger_spawn (hl : Ledger s) {k' : Kernel} (hview : k'.view = s.kernel.view.spawn) :
    Ledger { s with kernel := k' } := by
  have hn : k'.numThreads = s.kernel.numThreads + 1 := congrArg View.numThreads hview
  have hplace : System.place { s with kernel := k' } = s.place := by
    ext1 t
    simp [System.place, hview]
  have hpassed : ∀ sem, System.passed { s with kernel := k' } sem = s.passed sem := by
    intro sem
    have hidle := hl.idle s.kernel.numThreads (Nat.le_refl _)
    unfold System.passed
    rw [hplace, show System.kernel { s with kernel := k' } = k' from rfl, hn, Sums.total_succ]
    simp [System.place, hidle, passedBy]
  refine ⟨fun t ht => hl.idle t ?_, fun t => ?_, hl.clean, fun hat => ?_⟩
  · have ht' : k'.numThreads ≤ t := ht
    rw [hn] at ht'
    exact Nat.le_of_succ_le ht'
  · rw [hplace]
    exact hl.fits t
  · exact (hl.counted hat).of_same rfl rfl (hpassed _) (congrFun (congrArg View.sems hview) _)

/-- A test of `value` by a thread that is in no call, on a semaphore outside the table. -/
theorem ledger_foreign_test (hl : Ledger s) {k' : Kernel} {sem : SemId}
    (hfree : s.table.owns sem = false) (hp : s.pending s.kernel.currentThread = none)
    (hview : k'.view = s.kernel.view.apply (s.kernel.testEffect sem)) :
    Ledger { s with kernel := k' } := by
  have hother : ∀ sem', s.table.owns sem' = true → sem' ≠ sem := by
    rintro sem' hown rfl
    rw [hfree] at hown
    cases hown
  unfold Kernel.testEffect at hview
  split at hview
  · refine ledger_foreign hl (congrArg View.numThreads hview) (fun t => ?_) (fun sem' _ => ?_)
    · rw [hview]
      by_cases ht : t = s.kernel.currentThread
      · subst ht
        refine Or.inr ⟨hp, fun sem' hsem => ?_⟩
        simp only [View.apply, View.block_waits, update_self, Option.some.injEq] at hsem
        rwa [← hsem]
      · exact Or.inl (update_of_ne ht _ _)
    · exact congrFun (congrArg View.sems hview) sem'
  · refine ledger_foreign hl (congrArg View.numThreads hview) (fun t => ?_) (fun sem' hown => ?_)
    · rw [hview]
      by_cases ht : t = s.kernel.currentThread
      · subst ht
        refine Or.inr ⟨hp, fun sem' hsem => ?_⟩
        simp [View.apply] at hsem
      · exact Or.inl (update_of_ne ht _ _)
    · exact (congrFun (congrArg View.sems hview) sem').trans (update_of_ne (hother sem' hown) _ _)

/-- Whatever else a thread or an interrupt does. -/
theorem ledger_kernel (h : SysInv s) (hl : Ledger s) {l : Threads.Label} {k' : Kernel}
    (ha : s.allows l = true) (hk : Threads.step s.kernel l = some k') :
    Ledger { s with kernel := k' } := by
  obtain ⟨-, hfree, hown⟩ := allows_iff.mp ha
  have hview := Threads.view_step h.kernel h.unforked hk
  have hquiet : k'.view = s.kernel.view → Ledger { s with kernel := k' } := by
    intro heq
    exact ledger_foreign hl (congrArg View.numThreads heq) (fun t => Or.inl (by rw [heq]))
      fun sem _ => by rw [heq]
  have hgive : ∀ sem, s.table.owns sem = false → k'.view = s.kernel.view.give sem →
      Ledger { s with kernel := k' } := by
    intro sem hsem heq
    refine ledger_foreign hl (congrArg View.numThreads heq) (fun t => Or.inl (by rw [heq]; rfl)) ?_
    intro sem' hown'
    have hne : sem' ≠ sem := by
      rintro rfl
      rw [hsem] at hown'
      cases hown'
    exact (congrFun (congrArg View.sems heq) sem').trans (update_of_ne hne _ _)
  cases l with
  | newThread => exact ledger_spawn hl hview
  | newSemaphore v =>
    refine ledger_foreign hl (congrArg View.numThreads hview) (fun t => Or.inl (by rw [hview]; rfl)) ?_
    intro sem hsem
    obtain ⟨i, e, hat, rfl⟩ := owns_iff.mp hsem
    have hne : e.sem ≠ s.kernel.numSems := Nat.ne_of_lt (h.table.created hat)
    exact (congrFun (congrArg View.sems hview) e.sem).trans (update_of_ne hne _ _)
  | p sem => exact ledger_foreign_test hl (hfree sem rfl) (hown rfl) hview
  | v sem => exact hgive sem (hfree sem rfl) hview
  | handlerV sem => exact hgive sem (hfree sem rfl) hview
  | resume =>
    obtain ⟨hm, -⟩ := Option.ite_none_right_eq_some.mp hk
    unfold Kernel.effect at hview
    have hfits := hl.fits s.kernel.currentThread
    cases hw : s.kernel.current.resume.waitsOn with
    | none =>
      rw [hw] at hview
      exact hquiet hview
    | some sem =>
      rw [hw] at hview
      have hwaits : s.kernel.view.waits s.kernel.currentThread = some sem := hw
      cases hsem : s.table.owns sem with
      | true =>
        have hpend := hfits.waiting sem hwaits hsem
        have hplace : s.place s.kernel.currentThread = (some (.down sem), some sem) :=
          Prod.ext hpend hwaits
        exact ledger_test hl hsem (current_lt h hm) (Or.inr hplace) hview
          (Function.update_eq_self_iff.mpr hpend.symm).symm rfl rfl rfl
      | false =>
        refine ledger_foreign_test hl hsem ?_ hview
        -- a call of the table would be on `sem`
        cases hp : s.pending s.kernel.currentThread with
        | none => rfl
        | some c =>
          obtain ⟨hc, hdown⟩ := hfits.calling c hp
          rw [hdown sem hwaits] at hc
          rw [show s.table.owns sem = true from hc] at hsem
          cases hsem
  | _ => exact hquiet hview

/-- `Create` of a new name with a non-negative value. -/
theorem ledger_insert (h : SysInv s) (hl : Ledger s) (name : Str) {init : Int} {id : Nat}
    (hfree : s.table.semTab id = none) (hinit : 0 ≤ init ∧ init < 2 ^ 31) (bm : BitMap) :
    Ledger (s.insert name init id bm) := by
  have hview := Threads.view_newSemaphore (k := s.kernel) init
  have hplace : (s.insert name init id bm).place = s.place := rfl
  have hpassed : ∀ sem, (s.insert name init id bm).passed sem = s.passed sem := fun _ => rfl
  have hgrow : ∀ sem, s.table.owns sem = true → (s.insert name init id bm).table.owns sem = true := by
    intro sem hsem
    obtain ⟨i, e, ⟨hi, he⟩, rfl⟩ := owns_iff.mp hsem
    have hii : i ≠ id := by
      rintro rfl
      rw [hfree] at he
      cases he
    exact owns_iff.mpr ⟨i, e, ⟨hi, by simpa [hii] using he⟩, rfl⟩
  have hnew : ∀ sem, (s.insert name init id bm).table.owns sem = true →
      sem = s.kernel.numSems ∨ s.table.owns sem = true := by
    intro sem hsem
    obtain ⟨i, e, hat, rfl⟩ := owns_iff.mp hsem
    rcases at_insert hat with ⟨-, rfl⟩ | hold
    · exact Or.inl rfl
    · exact Or.inr (owns_iff.mpr ⟨i, e, hold, rfl⟩)
  have hunowned : s.table.owns s.kernel.numSems = false := by
    cases hown : s.table.owns s.kernel.numSems with
    | false => rfl
    | true =>
      obtain ⟨i, e, hat, heq⟩ := owns_iff.mp hown
      exact absurd (h.table.created hat) (by rw [heq]; exact Nat.lt_irrefl _)
  refine ⟨hl.idle, fun t => ⟨?_, ?_⟩, ?_, ?_⟩
  · intro sem hsem hown
    rcases hnew sem hown with rfl | hold
    · exact absurd (h.kernel.places.waits t _ hsem) (Nat.lt_irrefl _)
    · exact (hl.fits t).waiting sem hsem hold
  · intro c hc
    obtain ⟨hown, hdown⟩ := (hl.fits t).calling c hc
    exact ⟨hgrow _ hown, hdown⟩
  · intro sem hsem
    refine hl.clean sem ?_
    cases hown : s.table.owns sem with
    | false => rfl
    | true =>
      rw [hgrow sem hown] at hsem
      cases hsem
  · intro i e hat
    rcases at_insert hat with ⟨-, rfl⟩ | hold
    · -- nothing has been counted for the new semaphore
      have hsem : (s.insert name init id bm).kernel.sems s.kernel.numSems = .new init := by
        simp [Kernel.newSemaphore, Kernel.setSem]
      obtain ⟨hd, hu⟩ := hl.clean s.kernel.numSems hunowned
      have hzero : s.passed s.kernel.numSems = 0 := by
        refine (Sums.total_congr (h := fun _ => (none, none)) fun t _ => ?_).trans ?_
        · have hcall := (hl.fits t).calling (.down s.kernel.numSems)
          have hne : s.place t ≠ (some (.down s.kernel.numSems), none) := by
            intro heq
            have hown := (hcall (congrArg Prod.fst heq)).1
            rw [show SemCall.sem (.down s.kernel.numSems) = s.kernel.numSems from rfl,
              hunowned] at hown
            cases hown
          simp [passedBy, hne]
        · simp [Sums.total, passedBy]
      refine ⟨?_, ?_, ?_, ?_⟩
      · rw [hsem]
        exact hu
      · rw [hsem, hpassed, hzero]
        simpa using hd.symm
      · rw [hsem]
        simp
      · rw [hsem]
        exact hinit
    · have hne : e.sem ≠ s.kernel.numSems := Nat.ne_of_lt (h.table.created hold)
      exact (hl.counted hold).of_same rfl rfl (hpassed _)
        ((congrFun (congrArg View.sems hview) e.sem).trans (update_of_ne hne _ _))

theorem ledger_step {s' : System} {l : Label} (h : SysInv s) (hl : Ledger s) (hgood : good s l)
    (hstep : step s l = some s') : Ledger s' := by
  rcases step_cases h hstep with
    ⟨name, semval, rfl, -, ⟨-, rfl⟩ | ⟨id, hid, hnew, hfree, -, rfl⟩⟩ |
    ⟨name, -, -, rfl⟩ | ⟨name, e, rfl, hc, hlook, rfl⟩ | ⟨name, e, -, hc, hlook, rfl⟩ |
    ⟨c, -, hcode, hp, rfl⟩ | ⟨l', k', -, ha, hk, rfl⟩
  · exact ⟨hl.idle, hl.fits, hl.clean, fun hat => (hl.counted hat).of_same rfl rfl rfl rfl⟩
  · have hval : 0 ≤ semval.toInt := by
      rcases hgood with hp | hfull | hval
      · exact absurd hp hnew
      · obtain ⟨e, he⟩ := hfull id hid
        rw [hfree] at he
        cases he
      · exact hval
    have hlt : semval.toInt < 2 ^ 31 := by
      have := BitVec.two_mul_toInt_lt (x := semval)
      omega
    have hl' := ledger_insert h hl name hfree ⟨hval, hlt⟩ (s.table.bm.mark id)
    exact ⟨hl'.idle, hl'.fits, hl'.clean, fun hat => (hl'.counted hat).of_same rfl rfl rfl rfl⟩
  · exact ⟨hl.idle, hl.fits, hl.clean, fun hat => (hl.counted hat).of_same rfl rfl rfl rfl⟩
  · exact ledger_signal h hl hc hlook (hgood e hlook)
  · exact ledger_wait h hl hc hlook
  · exact ledger_finishCall h hl hcode hp
  · exact ledger_kernel h hl ha hk

/-- The two steps that are not good break the promise at once. -/
theorem not_admits_of_not_good {s' : System} {l : Label} (h : SysInv s)
    (hbad : ¬ good s l) (hstep : step s l = some s') : ¬ Admits s' := by
  intro hadmits
  rcases step_cases h hstep with
    ⟨name, semval, rfl, -, ⟨hcr, rfl⟩ | ⟨id, hid, hnew, hfree, -, rfl⟩⟩ |
    ⟨name, rfl | rfl, hlook, rfl⟩ | ⟨name, e, rfl, hc, hlook, rfl⟩ | ⟨name, e, rfl, -, -, -⟩ |
    ⟨c, rfl, -, -, -⟩ | ⟨l', k', rfl, -, -, -⟩
  · -- refused
    apply hbad
    rcases create_cases h.table name semval.toInt with
      ⟨hp, -⟩ | ⟨-, hfull, -⟩ | ⟨-, id, -, -, hcr'⟩
    · exact Or.inl hp
    · exact Or.inr (Or.inl hfull)
    · rw [hcr] at hcr'
      simp only [Option.some.injEq, Prod.mk.injEq] at hcr'
      omega
  · -- accepted with a negative value
    have hat : ((s.insert name semval.toInt id (s.table.bm.mark id)).writeResult 0).table.At id
        ⟨name, s.kernel.numSems⟩ := ⟨hid, by simp⟩
    have hnonneg := (hadmits _ _ hat).1
    have hsem : ((s.insert name semval.toInt id (s.table.bm.mark id)).writeResult 0).kernel.sems
        s.kernel.numSems = .new semval.toInt := by
      simp [Kernel.newSemaphore, Kernel.setSem]
    rw [hsem] at hnonneg
    exact hbad (Or.inr (Or.inr hnonneg))
  · exact hbad fun e he => by rw [hlook] at he; cases he
  · exact hbad trivial
  · -- the value wraps around
    have hmax : (s.kernel.sems e.sem).value = 2 ^ 31 - 1 := by
      by_contra hne
      refine hbad fun e' he' => ?_
      rw [hlook] at he'
      cases he'
      exact hne
    obtain ⟨i, hat, -⟩ := lookup_some hlook
    simp only [System.signal, hlook] at hadmits
    have hnonneg := (hadmits _ _ hat).1
    have hview := Threads.view_V (k := s.kernel) e.sem
    have hvalue : ((s.kernel.V e.sem).sems e.sem).value =
        Threads.wrap32 ((s.kernel.sems e.sem).value + 1) :=
      congrArg Threads.Semaphore.value
        ((congrFun (congrArg View.sems hview) e.sem).trans (update_self _ _ _))
    have hwrap : Threads.wrap32 ((s.kernel.sems e.sem).value + 1) = -2 ^ 31 := by
      rw [hmax]
      decide
    simp only [hvalue, hwrap] at hnonneg
    omega
  · exact hbad trivial
  · exact hbad trivial
  · exact hbad trivial

end Steps

theorem ledger_boot : Ledger boot := by
  refine ⟨fun t _ => rfl, fun t => fits_none _ fun sem hsem => ?_, fun sem _ => ⟨rfl, rfl⟩, ?_⟩
  · have hwaits := Threads.inv_boot.places.waits t sem hsem
    exact absurd hwaits (Nat.not_lt_zero sem)
  · rintro i e ⟨-, he⟩
    cases he

/-- In a run of any calls by any processes, the semaphores of the table keep a non-negative value
and admit no more than their count in every state exactly when no `SC_CreateSemaphore` is
accepted with a negative value and no `SC_Up` meets the value `INT_MAX`. -/
theorem admits_iff (ls : List Label) :
    Runs.AllStates step Admits boot ls ↔ Runs.AllSteps step good boot ls := by
  refine Runs.allStates_iff_allSteps (J := fun s => SysInv s ∧ Ledger s) (fun s h => h.2.admits)
    (fun s l s' h hgood hs => ⟨sysInv_step h.1 hs, ledger_step h.1 h.2 hgood hs⟩)
    (fun s l s' h hbad hs => not_admits_of_not_good h.1 hbad hs) ⟨sysInv_boot, ledger_boot⟩ ls

/-- The name "s". -/
def nameS : Str := ⟨[0x73], by decide⟩

/-- A process creates the semaphore "s" with the value `-1` and calls `SC_Down` on it. -/
def negativeRun : List Label := [.createSemaphore nameS (-1), .down nameS, .ret]

/-- Both calls of `negativeRun` return `0`: one `SC_Down` has passed a semaphore whose count is
`-1`, and its value is `-2`. -/
theorem not_admits_negativeRun :
    ¬ Runs.AllStates step Admits boot negativeRun ∧
      (Runs.run step boot negativeRun).map
        (fun s => (s.r2 0, (s.kernel.sems 0).init, s.downs 0, s.ups 0, (s.kernel.sems 0).value)) =
          some (0, -1, 1, 0, -2) := by
  refine ⟨fun h => ?_, by decide⟩
  have hend : (Runs.run step boot negativeRun).map
      (fun s => (s.table.semTab 0, (s.kernel.sems 0).value)) = some (some ⟨nameS, 0⟩, -2) := by decide
  obtain ⟨s, hrun, heq⟩ := Option.map_eq_some_iff.mp hend
  have hvalue : (s.kernel.sems 0).value = -2 := congrArg Prod.snd heq
  have hnonneg := (h.of_run hrun 0 ⟨nameS, 0⟩ ⟨by decide, congrArg Prod.fst heq⟩).1
  rw [show (Entry.mk nameS 0).sem = 0 from rfl, hvalue] at hnonneg
  exact absurd hnonneg (by decide)

end Nachos.Userprog.SemTable
