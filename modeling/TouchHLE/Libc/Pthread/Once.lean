import TouchHLE.Lib.Outcome
import TouchHLE.Lib.Run

/-! `pthread_once` (`libc/pthread/once.rs`) on one control block. The initialisation routine is guest code: it runs for any
    time, while other threads run, and may call `pthread_once` itself. -/

namespace TouchHLE.Libc.Pthread
open Lib List

def MAGIC_ONCE : UInt32 := 0x30B1BCBA

structure OnceControl where
  magic : UInt32
  init : UInt32

/-- What a call does before the routine: whether it is to be run, and the control block. -/
def OnceControl.enter (c : OnceControl) : Except Unit (Bool × OnceControl) :=
  if c.magic ≠ MAGIC_ONCE then .error ()
  else if c.init = 0 then .ok (true, { c with init := 0xFFFFFFFF })
  else if c.init = 0xFFFFFFFF then .ok (false, c)
  else .error ()

/-- The block, the threads that execute the routine, how often it has been started and completed, and the calls that have
    returned, each with its thread, the executing threads and the completions then. -/
structure Once where
  control : OnceControl
  executing : List Nat
  started : Nat
  completed : Nat
  returned : List (Nat × List Nat × Nat)

namespace Once

inductive Event
  | call (thread : Nat)
  | complete (thread : Nat)

def start : Once := ⟨⟨MAGIC_ONCE, 0⟩, [], 0, 0, []⟩

def called (s : Once) (thread : Nat) : Bool × OnceControl → Once
  | (true, control) => { s with control, executing := thread :: s.executing, started := s.started + 1 }
  | (false, control) => { s with control, returned := (thread, s.executing, s.completed) :: s.returned }

def completes (s : Once) (thread : Nat) : Once :=
  let executing := s.executing.erase thread
  { s with executing, completed := s.completed + 1, returned := (thread, executing, s.completed + 1) :: s.returned }

def step (s : Once) : Event → Except Unit (Unit × Once)
  | .call thread => do
    let entered ← s.control.enter
    .ok ((), s.called thread entered)
  | .complete thread => if thread ∈ s.executing then .ok ((), s.completes thread) else .error ()

/-- The routine is started by the first call only; a call returns after its completion, unless the thread that executes it
    calls. -/
structure ExecutesOnce (s : Once) : Prop where
  started : s.started = if s.control.init = 0 then 0 else 1
  accounted : s.started = s.completed + s.executing.length
  returned : ∀ r ∈ s.returned, r.1 ∈ r.2.1 ∨ 0 < r.2.2

/-- No other thread executes the routine when `pthread_once` is called. -/
def Undisturbed (s : Once) : Event → Prop
  | .call thread => ∀ other ∈ s.executing, other = thread
  | .complete _ => True

variable {s s' : Once} {e : Event} {u : Unit}

theorem ExecutesOnce.step (hs : s.ExecutesOnce) (he : s.Undisturbed e) (h : s.step e = .ok (u, s')) : s'.ExecutesOnce := by
  obtain ⟨hsta, hacc, hrtr⟩ := hs
  cases e with
  | call thread =>
    obtain ⟨entered, hent, h⟩ := bind_eq_ok.mp h
    cases h
    unfold OnceControl.enter at hent
    split_ifs at hent with hmgc hii hdn <;> cases hent
    · rw [if_pos hii] at hsta
      exact ⟨by simp [called, hsta], by simp [called]; omega, hrtr⟩
    · rw [if_neg hii] at hsta
      refine ⟨by simp [called, hsta, hii], hacc, forall_mem_cons.mpr ⟨?_, hrtr⟩⟩
      -- the routine has been completed, or a thread executes it, which is the one that calls
      cases hexe : s.executing with
      | nil =>
        rw [hexe] at hacc
        exact .inr (by simp at hacc ⊢; omega)
      | cons other rest => exact .inl (he other (hexe ▸ mem_cons_self) ▸ mem_cons_self)
  | complete thread =>
    rw [Once.step] at h
    split_ifs at h with hmem
    cases h
    have hln := length_erase_of_mem hmem
    have hpos := length_pos_of_mem hmem
    refine ⟨hsta, ?_, forall_mem_cons.mpr ⟨.inr (Nat.succ_pos _), hrtr⟩⟩
    simp only [completes]
    omega

theorem executesOnce_of_runs (h : Runs step Undisturbed start s) : s.ExecutesOnce :=
  h.invariant ⟨rfl, rfl, by simp [start]⟩ fun _ _ _ _ hs he hstep => hs.step he hstep

/-- Two calls, one after the other. -/
theorem executesOnce_of_runs_again : ∃ s, Runs step Undisturbed start s ∧ s.returned.length = 2 ∧ s.ExecutesOnce := by
  have h : Runs step Undisturbed start _ := .step (.step (.step (a := .call 1) .start (by simp [Undisturbed, start]) rfl)
    (a := .complete 1) trivial rfl) (a := .call 2) (by simp [Undisturbed, called, completes, start]) rfl
  exact ⟨_, h, rfl, executesOnce_of_runs h⟩

/-- A call in the middle of the routine returns at once. -/
theorem returns_before_completion : ∃ s, Runs step (fun _ _ => True) start s ∧ s.completed = 0 ∧ s.executing = [1] ∧
    s.returned = [(2, [1], 0)] ∧ ¬s.ExecutesOnce := by
  refine ⟨_, .step (.step (a := .call 1) .start trivial rfl) (a := .call 2) trivial rfl, rfl, rfl, rfl, fun hs => ?_⟩
  exact absurd (hs.returned _ mem_cons_self) (by decide)

end Once
end TouchHLE.Libc.Pthread
