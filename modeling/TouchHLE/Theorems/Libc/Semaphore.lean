import TouchHLE.Libc.Semaphore
import TouchHLE.Spec.NamedSemaphores
import TouchHLE.Theorems.Mem.Memory

/-! The named semaphores against the POSIX description: what `sem_open` gets right, and that everything else follows it. -/

namespace TouchHLE.Libc.Semaphores
open Lib Option Function Spec

variable {s t : Semaphores} {c : Call} {r : Result}
variable {id ptr sem alloc : Nat} {o : SemaphoreHostObject} {name : String} {oflag value : BitVec 32}

def view (s : Semaphores) : NamedSemaphores String Nat Nat :=
  ⟨s.namedSemaphores, s.openSemaphores, fun id => (s.objects id).value.toInt⟩

def Call.creates (oflag : BitVec 32) : Bool := oflag &&& oCreat != 0

def Call.excludes (oflag : BitVec 32) : Bool := oflag &&& oExcl != 0

def handle (ptr : Nat) : Option Nat := if ptr = semFailed then none else some ptr

variable (A : NamedSemaphores String Nat Nat)

/-- A call returns what POSIX asks for and leaves what POSIX asks for. -/
def Conforms (c : Call) (r : Result) (B : NamedSemaphores String Nat Nat) :
    Prop :=
  match c with
  | .semOpen name oflag value _ =>
    ∃ ptr, r = .sem ptr ∧ A.Opens name (Call.creates oflag) (Call.excludes oflag) value.toNat (handle ptr) B
  | .semClose sem => r = .returns 0 ∧ A.Closes sem B
  | .semUnlink name => r = .returns 0 ∧ A.Unlinks name B
  | .semPost sem => r = .returns 0 ∧ A.Adds sem 1 B
  | .semWait _ sem | .schedule _ sem => ∃ taken, r = (if taken then .returns 0 else .blocks) ∧ A.Takes sem taken B
  | .semTrywait _ sem => ∃ taken, r = (if taken then .returns 0 else .returns (-1)) ∧ A.Takes sem taken B

/-- The calls that the code answers as POSIX does: `sem_open` of names that do not exist, with values that are not
    negative as `i32`, and posts below the largest value. -/
def Fine : Call → Prop
  | .semOpen name oflag value _ =>
    if A.names name = none then Call.creates oflag = true → value.toNat < 2 ^ 31
    else Call.excludes oflag = true ∧ Call.creates oflag = false
  | .semPost sem => ∀ k, A.handles sem = some k → A.value k < 2 ^ 31 - 1
  | _ => True

def Valid : Call → Prop
  | .semOpen .. | .semUnlink _ => True
  | .semClose sem | .semPost sem | .semWait _ sem | .semTrywait _ sem | .schedule _ sem => A.handles sem ≠ none

/-- What the guest allocator promises for a handle: its memory is not that of an open handle. -/
def Fits (s : Semaphores) : Call → Prop
  | .semOpen _ _ _ alloc => s.openSemaphores alloc = none ∧ alloc ≠ semFailed
  | _ => True

instance (s : Semaphores) (c : Call) : Decidable (s.Fits c) := by
  apply Call.casesOn (motive := fun c => Decidable (s.Fits c)) c <;> intros <;> unfold Fits <;> infer_instance

/-- The handle in an object is the handle under which the object is open. -/
structure Inv (s : Semaphores) : Prop where
  opened : ∀ p id, s.openSemaphores p = some id →
    (s.objects id).guestSem = some p ∧ (s.objects id).named = true ∧ id < s.created ∧ p ≠ semFailed
  guest : ∀ p id, id < s.created → (s.objects id).guestSem = some p → s.openSemaphores p = some id
  names : ∀ name id, s.namedSemaphores name = some id → id < s.created ∧ (s.objects id).named = true

theorem inv_start : Inv start := ⟨fun _ _ h => (by cases h), fun _ _ h => (by cases h), fun _ _ h => (by cases h)⟩

theorem Inv.setObject (h : s.Inv) (hg : o.guestSem = (s.objects id).guestSem)
    (hn : o.named = (s.objects id).named) : (s.setObject id o).Inv := by
  have hobj : ∀ i, ((s.setObject id o).objects i).guestSem = (s.objects i).guestSem ∧
      ((s.setObject id o).objects i).named = (s.objects i).named := by
    intro i
    by_cases hi : i = id
    · subst hi
      simp [Semaphores.setObject, hg, hn]
    · simp [Semaphores.setObject, update_of_ne hi]
  refine ⟨fun p i hp => ?_, fun p i hi hp => ?_, fun n i hi => ?_⟩
  · rw [(hobj i).1, (hobj i).2]
    exact h.opened p i hp
  · rw [(hobj i).1] at hp
    exact h.guest p i hi hp
  · rw [(hobj i).2]
    exact h.names n i hi

theorem Inv.attach (h : s.Inv) (hno : (s.objects id).guestSem = none) (hnmd : (s.objects id).named = true)
    (hid : id < s.created) (hptr : s.openSemaphores ptr = none) (hvd : ptr ≠ semFailed) : (s.attach id ptr).Inv := by
  refine ⟨fun p i hp => ?_, fun p i hi hp => ?_, fun n i hi => ?_⟩
  · rcases eq_or_ne p ptr with rfl | hne
    · obtain rfl : id = i := by simpa [Semaphores.attach] using hp
      simp [Semaphores.attach, Semaphores.setObject, hnmd, hid, hvd]
    · have hold : s.openSemaphores p = some i := by simpa [Semaphores.attach, update_of_ne hne] using hp
      have hi : i ≠ id := by
        rintro rfl
        rw [(h.opened p i hold).1] at hno
        cases hno
      simpa [Semaphores.attach, Semaphores.setObject, update_of_ne hi] using h.opened p i hold
  · rcases eq_or_ne i id with rfl | hne
    · obtain rfl : ptr = p := by simpa [Semaphores.attach, Semaphores.setObject] using hp
      simp [Semaphores.attach]
    · have hold : (s.objects i).guestSem = some p := by
        simpa [Semaphores.attach, Semaphores.setObject, update_of_ne hne] using hp
      have hop := h.guest p i hi hold
      have hp : p ≠ ptr := by
        rintro rfl
        rw [hop] at hptr
        cases hptr
      simpa [Semaphores.attach, update_of_ne hp] using hop
  · have hold := h.names n i hi
    rcases eq_or_ne i id with rfl | hne
    · simp [Semaphores.attach, Semaphores.setObject, hnmd, hid]
    · simpa [Semaphores.attach, Semaphores.setObject, update_of_ne hne] using hold

theorem Inv.create (h : s.Inv) (name : String) (value : BitVec 32) : (s.create name value).Inv := by
  have hobj : ∀ i, i < s.created → (s.create name value).objects i = s.objects i := fun i hi =>
    update_of_ne (Nat.ne_of_lt hi) _ _
  refine ⟨fun p i hp => ?_, fun p i hi hp => ?_, fun n i hi => ?_⟩
  · obtain ⟨hg, hn, hlt, hvd⟩ := h.opened p i hp
    rw [hobj i hlt]
    exact ⟨hg, hn, Nat.lt_succ_of_lt hlt, hvd⟩
  · rcases Nat.lt_succ_iff_lt_or_eq.mp hi with hlt | rfl
    · rw [hobj i hlt] at hp
      exact h.guest p i hlt hp
    · simp [Semaphores.create, Semaphores.setObject] at hp
  · rcases eq_or_ne n name with rfl | hne
    · obtain rfl : s.created = i := by simpa [Semaphores.create] using hi
      simp [Semaphores.create, Semaphores.setObject]
    · obtain ⟨hlt, hn⟩ := h.names n i (by simpa [Semaphores.create, update_of_ne hne] using hi)
      rw [hobj i hlt]
      exact ⟨Nat.lt_succ_of_lt hlt, hn⟩

theorem Inv.detach (h : s.Inv) (hid : s.openSemaphores sem = some id) :
    Inv ({ s with openSemaphores := update s.openSemaphores sem none }.setObject id
      { s.objects id with guestSem := none }) := by
  obtain ⟨hg, hn, hlt, -⟩ := h.opened sem id hid
  refine ⟨fun p i hp => ?_, fun p i hi hp => ?_, fun n i hi => ?_⟩
  · have hne : p ≠ sem := by
      rintro rfl
      simp [Semaphores.setObject] at hp
    have hold : s.openSemaphores p = some i := by simpa [Semaphores.setObject, update_of_ne hne] using hp
    have hi : i ≠ id := by
      rintro rfl
      rw [(h.opened p i hold).1] at hg
      exact hne (some_inj.mp hg)
    simpa [Semaphores.setObject, update_of_ne hi] using h.opened p i hold
  · have hne : i ≠ id := by
      rintro rfl
      simp [Semaphores.setObject] at hp
    have hold : (s.objects i).guestSem = some p := by simpa [Semaphores.setObject, update_of_ne hne] using hp
    have hp : p ≠ sem := by
      rintro rfl
      rw [h.guest p i hi hold] at hid
      exact hne (some_inj.mp hid)
    simpa [Semaphores.setObject, update_of_ne hp] using h.guest p i hi hold
  · have hold := h.names n i hi
    rcases eq_or_ne i id with rfl | hne
    · simpa [Semaphores.setObject] using hold
    · simpa [Semaphores.setObject, update_of_ne hne] using hold

theorem Inv.unlink (h : s.Inv) (name : String) : (s.semUnlink name).2.Inv := by
  refine ⟨h.opened, h.guest, fun n i hi => ?_⟩
  have hne : n ≠ name := by
    rintro rfl
    simp [semUnlink] at hi
  exact h.names n i (by simpa [semUnlink, update_of_ne hne] using hi)

theorem view_setObject (id : Nat) (o : SemaphoreHostObject) :
    (s.setObject id o).view = { s.view with value := update s.view.value id o.value.toInt } := by
  have hvl : (fun i => ((s.setObject id o).objects i).value.toInt) = update s.view.value id o.value.toInt := by
    funext i
    rcases eq_or_ne i id with rfl | hne
    · simp [Semaphores.setObject]
    · simp [Semaphores.setObject, view, update_of_ne hne]
  simp only [view, hvl]
  rfl

theorem view_setObject_same (s : Semaphores) (id : Nat) (hv : o.value = (s.objects id).value) :
    (s.setObject id o).view = s.view := by
  rw [view_setObject, hv]
  have hid : update s.view.value id (s.objects id).value.toInt = s.view.value := update_eq_self _ _
  rw [hid]

theorem view_attach (id ptr : Nat) :
    (s.attach id ptr).view = { s.view with handles := update s.view.handles ptr (some id) } := by
  have hsm := view_setObject_same s id (o := { s.objects id with guestSem := some ptr }) rfl
  simp only [view, NamedSemaphores.mk.injEq] at hsm
  simp only [view, attach, hsm.2.2]
  rfl

theorem view_create (name : String) (value : BitVec 32) :
    (s.create name value).view = ⟨update s.namedSemaphores name (some s.created), s.openSemaphores,
      update s.view.value s.created value.toInt⟩ := by
  have hset := view_setObject (s := s) s.created { value, waiting := [], guestSem := none, named := true }
  simp only [view, NamedSemaphores.mk.injEq] at hset
  simp only [view, create, hset.2.2]
  rfl

def Answers (s : Semaphores) (c : Call) (r : Result) (t : Semaphores) : Prop :=
  s.call c = .ok (r, t) ∧ t.Inv ∧ (Conforms s.view c r t.view ↔ Fine s.view c)

theorem answers_of_conforms (hcl : s.call c = .ok (r, t)) (hinv : t.Inv) (hc : Conforms s.view c r t.view)
    (hf : Fine s.view c) : s.Answers c r t :=
  ⟨hcl, hinv, iff_of_true hc hf⟩

@[simp] theorem handle_semFailed : handle semFailed = none := if_pos rfl

theorem handle_of_ne (h : ptr ≠ semFailed) : handle ptr = some ptr := if_neg h

/-- An existing name, with `O_EXCL`: the answer is a handle, so it is right only when `O_CREAT` is not given. -/
theorem conforms_existing
    (hid : s.namedSemaphores name = some id) (hexc : Call.excludes oflag = true) (hptr : ptr ≠ semFailed) :
    Conforms s.view (.semOpen name oflag value alloc) (.sem ptr) t.view ↔ Fine s.view (.semOpen name oflag value alloc) := by
  have hnm : s.view.names name = some id := hid
  simp only [Conforms, Fine, NamedSemaphores.Opens, hnm, hexc]
  cases hcrt : Call.creates oflag with
  | false => simp
  | true => simp [handle_of_ne hptr]

theorem semOpen_existing (h : s.Inv)
    (hft : s.Fits (.semOpen name oflag value alloc)) (hid : s.namedSemaphores name = some id) :
    ∃ r t, s.Answers (.semOpen name oflag value alloc) r t := by
  obtain ⟨hfr, hvd⟩ := hft
  obtain ⟨hlt, hnmd⟩ := h.names name id hid
  by_cases hexc : oflag &&& oExcl = 0#32
  · -- The code gives up where POSIX opens the semaphore.
    refine ⟨.sem semFailed, s, by simp [call, semOpen, hid, hexc], h, ?_⟩
    have hnm : s.view.names name = some id := hid
    have hx : Call.excludes oflag = false := by simp [Call.excludes, hexc]
    simp [Conforms, Fine, NamedSemaphores.Opens, hnm, hx]
  · have hx : Call.excludes oflag = true := by simp [Call.excludes, hexc]
    cases hgst : (s.objects id).guestSem with
    | some ptr =>
      have hptr := (h.opened ptr id (h.guest ptr id hlt hgst)).2.2.2
      exact ⟨.sem ptr, s, by simp [call, semOpen, hid, hexc, hgst], h, conforms_existing hid hx hptr⟩
    | none =>
      exact ⟨.sem alloc, s.attach id alloc, by simp [call, semOpen, hid, hexc, hgst],
        h.attach hgst hnmd hlt hfr hvd, conforms_existing hid hx hvd⟩

theorem semOpen_new (h : s.Inv)
    (hft : s.Fits (.semOpen name oflag value alloc)) (hnm : s.namedSemaphores name = none) :
    ∃ r t, s.Answers (.semOpen name oflag value alloc) r t := by
  obtain ⟨hfr, hvd⟩ := hft
  have hvw : s.view.names name = none := hnm
  by_cases hcrt : oflag &&& oCreat = 0#32
  · have hc : Call.creates oflag = false := by simp [Call.creates, hcrt]
    refine ⟨.sem semFailed, s, answers_of_conforms (by simp [call, semOpen, hnm, hcrt]) h ?_ ?_⟩
    · simp [Conforms, NamedSemaphores.Opens, hvw, hc]
    · simp [Fine, hvw, hc]
  · have hc : Call.creates oflag = true := by simp [Call.creates, hcrt]
    have hinv :=
      (h.create name value).attach (by simp [create, Semaphores.setObject]) (by simp [create, Semaphores.setObject])
        (Nat.lt_succ_self _) hfr hvd
    refine ⟨.sem alloc, _, by simp [call, semOpen, hnm, hcrt], hinv, ?_⟩
    rw [view_attach, view_create]
    simp only [Conforms, Fine, NamedSemaphores.Opens, hvw, hc, if_true]
    have hint : value.toInt = value.toNat ↔ value.toNat < 2 ^ 31 := by
      rw [BitVec.toInt_eq_toNat_cond]
      split <;> omega
    constructor
    · rintro ⟨_, -, _, -, -, k, -, heq⟩
      -- The new semaphore is the one that the name refers to, and the values are the same there.
      rw [NamedSemaphores.mk.injEq] at heq
      obtain ⟨hn, -, hv⟩ := heq
      have hk := congrFun hn name
      rw [update_self, update_self] at hk
      obtain rfl := some_inj.mp hk
      have hvl := congrFun hv s.created
      rw [update_self, update_self] at hvl
      exact fun _ => hint.mp hvl
    · intro hlt
      refine ⟨alloc, rfl, alloc, handle_of_ne hvd, hfr, s.created, ⟨fun n hn => ?_, fun p hp => ?_⟩, ?_⟩
      · exact Nat.lt_irrefl _ (h.names n _ hn).1
      · exact Nat.lt_irrefl _ (h.opened p _ hp).2.2.1
      · rw [hint.mpr (hlt trivial)]
        rfl

theorem hostSem_eq (hid : s.openSemaphores sem = some id) : s.hostSem sem = .ok id := by
  simp [hostSem, hid]

theorem toInt_add_one (v : BitVec 32) : (v + 1).toInt = v.toInt + 1 ↔ v.toInt < 2 ^ 31 - 1 := by
  have hone : BitVec.toNat (1 : BitVec 32) = 1 := rfl
  simp only [BitVec.toInt_eq_toNat_cond, BitVec.toNat_add, hone]
  split <;> split <;> omega

theorem toInt_sub_one {v : BitVec 32} (h : 0 < v.toInt) : (v - 1).toInt = v.toInt + -1 := by
  have hone : BitVec.toNat (1 : BitVec 32) = 1 := rfl
  simp only [BitVec.toInt_eq_toNat_cond, BitVec.toNat_sub, hone] at h ⊢
  split at h <;> split <;> omega

theorem adds_decrement (hid : s.openSemaphores sem = some id)
    (hpos : 0 < (s.objects id).value.toInt) (ho : o.value = (s.objects id).value - 1) :
    s.view.Adds sem (-1) (s.setObject id o).view := by
  refine ⟨id, hid, ?_⟩
  rw [view_setObject, ho, toInt_sub_one hpos]
  rfl

section
variable (h : s.Inv) (hid : s.openSemaphores sem = some id)
include h hid

theorem semClose_answers : ∃ r t, s.Answers (.semClose sem) r t := by
  obtain ⟨hg, hn, -, -⟩ := h.opened sem id hid
  refine ⟨.returns 0, _, answers_of_conforms (by simp [call, semClose, hostSem_eq hid, hn, hg]) (h.detach hid)
    ⟨rfl, ?_⟩ trivial⟩
  exact view_setObject_same { s with openSemaphores := update s.openSemaphores sem none } id rfl

theorem semPost_answers : ∃ r t, s.Answers (.semPost sem) r t := by
  refine ⟨.returns 0, s.setObject id { s.objects id with value := (s.objects id).value + 1 },
    by simp [call, semIncrement, hostSem_eq hid], h.setObject rfl rfl, ?_⟩
  have hvw : s.view.handles sem = some id := hid
  constructor
  · rintro ⟨-, k, hk, heq⟩ k' hk'
    obtain rfl : id = k := some_inj.mp (hvw.symm.trans hk)
    obtain rfl : id = k' := some_inj.mp (hvw.symm.trans hk')
    rw [view_setObject, NamedSemaphores.mk.injEq] at heq
    have hvl := congrFun heq.2.2 id
    rw [update_self, update_self] at hvl
    exact (toInt_add_one _).mp hvl
  · intro hf
    refine ⟨rfl, id, hid, ?_⟩
    rw [view_setObject, (toInt_add_one _).mpr (hf id hid)]
    rfl

theorem semDecrement_answers (currentThread : Nat)
    (waitOnLock : Bool) : ∃ d t, s.semDecrement currentThread sem waitOnLock = .ok (d, t) ∧ t.Inv ∧
      (d = .blocked → waitOnLock = true) ∧ (d = .failed → waitOnLock = false) ∧
      s.view.Takes sem (decide (d = .done)) t.view := by
  by_cases hpos : 0 < (s.objects id).value.toInt
  · exact ⟨.done, s.setObject id { s.objects id with value := (s.objects id).value - 1 },
      by simp [semDecrement, hostSem_eq hid, if_pos hpos], h.setObject rfl rfl, by rintro ⟨⟩, by rintro ⟨⟩,
      id, hid, (decide_eq_true hpos).symm, adds_decrement hid hpos rfl⟩
  · have hnot : decide (0 < s.view.value id) = false := decide_eq_false hpos
    cases waitOnLock with
    | false =>
      exact ⟨.failed, s, by simp [semDecrement, hostSem_eq hid, hpos], h, by rintro ⟨⟩, fun _ => rfl, id, hid, hnot.symm, rfl⟩
    | true =>
      exact ⟨.blocked, s.setObject id { s.objects id with waiting := (s.objects id).waiting.insert currentThread },
        by simp [semDecrement, hostSem_eq hid, hpos], h.setObject rfl rfl, fun _ => rfl, by rintro ⟨⟩,
        id, hid, hnot.symm, view_setObject_same s id rfl⟩

theorem schedule_answers (currentThread : Nat) :
    ∃ taken t, s.schedule currentThread sem = .ok (taken, t) ∧ t.Inv ∧ s.view.Takes sem taken t.view := by
  by_cases hpos : 0 < (s.objects id).value.toInt
  · exact ⟨true, s.setObject id { s.objects id with
        value := (s.objects id).value - 1, waiting := (s.objects id).waiting.erase currentThread },
      by simp [schedule, hostSem_eq hid, if_pos hpos], h.setObject rfl rfl,
      id, hid, (decide_eq_true hpos).symm, adds_decrement hid hpos rfl⟩
  · exact ⟨false, s, by simp [schedule, hostSem_eq hid, if_neg hpos], h, id, hid, (decide_eq_false hpos).symm, rfl⟩

end

theorem call_answers (h : s.Inv) (hft : s.Fits c) (hvd : Valid s.view c) : ∃ r t, s.Answers c r t := by
  cases c with
  | semOpen name oflag value alloc =>
    cases hnm : s.namedSemaphores name with
    | none => exact semOpen_new h hft hnm
    | some id => exact semOpen_existing h hft hnm
  | semUnlink name => exact ⟨.returns 0, _, answers_of_conforms rfl (h.unlink name) ⟨rfl, rfl⟩ trivial⟩
  | semClose sem =>
    obtain ⟨id, hid⟩ := ne_none_iff_exists'.mp hvd
    exact semClose_answers h hid
  | semPost sem =>
    obtain ⟨id, hid⟩ := ne_none_iff_exists'.mp hvd
    exact semPost_answers h hid
  | semWait currentThread sem =>
    obtain ⟨id, hid⟩ := ne_none_iff_exists'.mp hvd
    obtain ⟨d, t, hcl, hinv, -, hfai, hts⟩ := semDecrement_answers h hid currentThread true
    refine ⟨_, t, answers_of_conforms (by simp only [call, hcl, ok_bind]; rfl) hinv ⟨_, ?_, hts⟩ trivial⟩
    cases d with
    | done => rfl
    | blocked => rfl
    | failed => cases hfai rfl
  | semTrywait currentThread sem =>
    obtain ⟨id, hid⟩ := ne_none_iff_exists'.mp hvd
    obtain ⟨d, t, hcl, hinv, -, -, hts⟩ := semDecrement_answers h hid currentThread false
    refine ⟨_, t, answers_of_conforms (by simp only [call, hcl, ok_bind]; rfl) hinv ⟨_, ?_, hts⟩ trivial⟩
    simp
  | schedule currentThread sem =>
    obtain ⟨id, hid⟩ := ne_none_iff_exists'.mp hvd
    obtain ⟨taken, t, hcl, hinv, hts⟩ := schedule_answers h hid currentThread
    exact ⟨_, t, answers_of_conforms (by simp [call, hcl]) hinv ⟨taken, rfl, hts⟩ trivial⟩

theorem valid_of_ok (hcl : s.call c = .ok (r, t)) : Valid s.view c := by
  have hop : ∀ {sem id : Nat}, s.hostSem sem = .ok id → s.view.handles sem ≠ none := by
    intro sem id hid hno
    have hno : s.openSemaphores sem = none := hno
    simp [hostSem, hno] at hid
  cases c with
  | semOpen | semUnlink => trivial
  | semClose | semPost | semWait | semTrywait | schedule =>
    obtain ⟨p, hp, -⟩ := bind_eq_ok.mp hcl
    obtain ⟨id, hid, -⟩ := bind_eq_ok.mp hp
    exact hop hid

theorem inv_of_runs (hrun : Runs call Fits start s) : s.Inv := by
  refine hrun.invariant inv_start fun s t c r hs hft hcl => ?_
  obtain ⟨r', t', hcl', hinv, -⟩ := call_answers hs hft (valid_of_ok hcl)
  rw [hcl] at hcl'
  cases hcl'
  exact hinv

/-- In every state that the semaphores reach, every call of the guest returns, and follows POSIX exactly when it is
    fine: `sem_open` follows it for names that do not exist, everything else always does. -/
theorem conforms_iff_of_runs (hrun : Runs call Fits start s) (hfits : s.Fits c) (hvalid : Valid s.view c) :
    ∃ r t, s.call c = .ok (r, t) ∧ (Conforms s.view c r t.view ↔ Fine s.view c) := by
  obtain ⟨r, t, hcall, -, hiff⟩ := call_answers (inv_of_runs hrun) hfits hvalid
  exact ⟨r, t, hcall, hiff⟩

/-- A semaphore whose name is gone: its handle still takes a unit. -/
theorem conforms_iff_of_runs_unlinked :
    ∃ s, exec call Fits start [.semOpen "x" oCreat 3 16, .semUnlink "x"] = some s ∧ s.namedSemaphores "x" = none ∧
      ∃ r t, s.call (.semWait 0 16) = .ok (r, t) ∧
        (Conforms s.view (.semWait 0 16) r t.view ↔ Fine s.view (.semWait 0 16)) :=
  ⟨_, rfl, rfl, conforms_iff_of_runs (.exec [.semOpen "x" oCreat 3 16, .semUnlink "x"] .start rfl) trivial (by rintro ⟨⟩)⟩

/-- A semaphore exists. Opening it without `O_EXCL` fails, and opening it with `O_CREAT` and `O_EXCL` does not. -/
theorem opens_reversed : ∃ s, exec call Fits start [.semOpen "x" oCreat 3 16] = some s ∧ s.namedSemaphores "x" = some 0 ∧
      s.call (.semOpen "x" 0 0 32) = .ok (.sem semFailed, s) ∧
      ¬Conforms s.view (.semOpen "x" 0 0 32) (.sem semFailed) s.view ∧
      s.call (.semOpen "x" (oCreat ||| oExcl) 0 32) = .ok (.sem 16, s) ∧
      ¬Conforms s.view (.semOpen "x" (oCreat ||| oExcl) 0 32) (.sem 16) s.view := by
  refine ⟨_, rfl, rfl, rfl, ?_, rfl, ?_⟩
  · rintro ⟨_, ⟨⟩, p, hp, -⟩
    cases hp
  · rintro ⟨_, ⟨⟩, hfailed⟩
    cases (hfailed rfl).1

/-- As long as the memory of open handles is in use, what the guest allocator returns fits. -/
theorem fits_of_allocInHeap {ι : Type} [DecidableEq ι] {m : Mem.Memory ι} (hm : m.Inv)
    (hlv : ∀ p, s.openSemaphores p ≠ none → m.view.LiveAt p) {g} {mem : Mem}
    (heq : m.mem.allocInHeap none 4 = .ok (ptr, g, mem)) (name : String) (oflag value : BitVec 32) :
    s.Fits (.semOpen name oflag value ptr) := by
  have hfh := Mem.Memory.allocInHeap_ok hm (k := none) rfl (by omega) heq
  refine ⟨?_, ?_⟩
  · by_contra hop
    exact Mem.Memory.not_liveAt_of_allocInHeap hm (k := none) rfl (by omega) heq (hlv ptr hop)
  · have hus := (hfh.live ptr (Nat.le_refl _) (by omega)).used hfh.inv.heaps
    obtain ⟨c, hc, hcx⟩ := hus
    have hhas := hfh.inv.heaps.vm.of_used hc hcx
    have hlt : ptr < 0 + Mem.mainThreadStackLowEnd := hhas.2
    intro hfai
    rw [hfai] at hlt
    exact absurd hlt (by decide)

end TouchHLE.Libc.Semaphores
