import TouchHLE.Libc.Descriptors
import Mathlib.Order.Bounds.Defs

/-! The table of descriptors over whole runs. Which descriptors are in use follows from what `open` has returned and what has
    been closed; most of the calls look only for the slot of a descriptor, which stays when the descriptor is closed. -/

namespace TouchHLE.Libc
open Lib List
variable {fd : Int}
namespace Posix

inductive Event where
  | opened (fd : Int)
  | closed (fd : Int)
deriving DecidableEq

def note (_ : Posix) (c : Call) (result : Int) (_ : Posix) : List Event :=
  match c with
  | .open _ _ _ _ => if result ≠ -1 then [.opened result] else []
  | .close fd _ => [.closed fd]
  | .read _ _ _ => []
  | .write _ _ _ _ => []
  | .lseek _ _ _ => []
  | .fcntl _ _ _ => []

def Event.apply (fds : List Int) : Event → List Int
  | opened fd => fds ++ [fd]
  | closed fd => fds.filter (· ≠ fd)

variable (log : List Event) (s : Posix)

def live : List Int := log.foldl Event.apply []

def fileAt (fd : Int) : Option PosixFileHostObject :=
  if NORMAL_FILENO_BASE ≤ fd then Slots.get s.env.files (fd - NORMAL_FILENO_BASE).toNat else none

def InvalidLock (ptr : Nat) : Prop := ∃ lock, s.readFlock ptr = .ok lock ∧
    (¬(lock.lockType = F_RDLCK ∨ lock.lockType = F_UNLCK ∨ lock.lockType = F_WRLCK) ∨
      ¬(lock.whence = SEEK_SET ∨ lock.whence = SEEK_CUR ∨ lock.whence = SEEK_END) ∨
      lock.whence = SEEK_SET ∧ lock.start < 0)

def Fails (result : Except PosixPanic (Int × Posix)) : Prop := ∃ t, result = .ok (-1, t) ∧ ∀ fd, t.fileAt fd = s.fileAt fd

/-- What a call is to do after the events of `log`. -/
def Answers : Call → Prop
  | .open path flags host handle => ∀ fd t, s.open host handle path flags = .ok (fd, t) → fd ≠ -1 →
      IsLeast {d | NORMAL_FILENO_BASE ≤ d ∧ d ∉ live log} fd ∧ (t.fileAt fd).isSome ∧ ∀ d, d ≠ fd → t.fileAt d = s.fileAt d
  | .close fd synced => (fd ∉ live log → Fails s (s.close fd synced)) ∧
      (fd ∈ live log → ∃ result t, s.close fd synced = .ok (result, t) ∧ t.fileAt fd = none ∧
        ∀ d, d ≠ fd → t.fileAt d = s.fileAt d)
  | .read fd buffer size => fd ∉ live log → Fails s (s.read fd buffer size)
  | .write fd buffer size answer => fd ∉ live log → Fails s (s.write fd buffer size answer)
  | .lseek fd offset whence => fd ∉ live log → Fails s (s.lseek fd offset whence)
  | .fcntl fd cmd arg => fd ∉ live log → Fails s (s.fcntl fd cmd arg)

/-- The least descriptor that `fd_to_file_idx` takes. -/
def leastFd : Int := -2 ^ 31 + NORMAL_FILENO_BASE

def Careful : Call → Prop
  | .open _ _ _ _ => True
  | .close fd _ => ¬(fd = STDIN_FILENO ∨ fd = STDOUT_FILENO ∨ fd = STDERR_FILENO)
  | .read fd buffer _ => buffer = 0 ∨ leastFd ≤ fd
  | .write fd _ _ _ => fd ∈ live log
  | .lseek fd _ _ => leastFd ≤ fd
  | .fcntl fd cmd arg => fd ∈ live log ∨ (NORMAL_FILENO_BASE ≤ fd ∧ .opened fd ∉ log) ∨
      (cmd = F_GETLK ∨ cmd = F_SETLK) ∧ InvalidLock s arg

section Slots
variable {s t : Posix}

@[simp] theorem setErrno_files (s : Posix) (val : Int) : (s.setErrno val).env.files = s.env.files := rfl

theorem fileAt_idx (s : Posix) (idx : Nat) : s.fileAt (idx + NORMAL_FILENO_BASE) = Slots.get s.env.files idx := by
  have hle : NORMAL_FILENO_BASE ≤ idx + NORMAL_FILENO_BASE := by omega
  rw [fileAt, if_pos hle, Int.add_sub_cancel, Int.toNat_natCast]

theorem fileAt_eq_some {file} (h : s.fileAt fd = some file) :
    ∃ idx : Nat, fd = idx + NORMAL_FILENO_BASE ∧ Slots.get s.env.files idx = some file := by
  rw [fileAt] at h
  split at h
  · rename_i hle
    exact ⟨_, by omega, h⟩
  · cases h

theorem fdToFileIdx_small (h : fd < leastFd) : Env.fdToFileIdx fd = .error .fileDescriptor := by
  have hlt : fd - NORMAL_FILENO_BASE < -2 ^ 31 := by
    rw [leastFd] at h
    omega
  rw [Env.fdToFileIdx, if_pos hlt]

theorem fdToFileIdx_low (h : leastFd ≤ fd) (hlow : fd < NORMAL_FILENO_BASE) : Env.fdToFileIdx fd = .ok none := by
  have hge : ¬fd - NORMAL_FILENO_BASE < -2 ^ 31 := by
    rw [leastFd] at h
    omega
  rw [Env.fdToFileIdx, if_neg hge, if_pos (by omega)]

theorem fdToFileIdx_idx (idx : Nat) : Env.fdToFileIdx (idx + NORMAL_FILENO_BASE) = .ok (some idx) := by
  have hge : ¬(idx : Int) < -2 ^ 31 := by omega
  rw [Env.fdToFileIdx, Int.add_sub_cancel, if_neg hge, if_neg (by omega), Int.toNat_natCast]

theorem fileForFd_small (s : Env) (h : fd < leastFd) : s.fileForFd fd = .error .fileDescriptor := by
  rw [Env.fileForFd, fdToFileIdx_small h]
  rfl

theorem fileForFd_low (s : Env) (h : leastFd ≤ fd) (hlow : fd < NORMAL_FILENO_BASE) : s.fileForFd fd = .ok none := by
  rw [Env.fileForFd, fdToFileIdx_low h hlow]
  rfl

theorem fileForFd_idx (s : Env) (idx : Nat) :
    s.fileForFd (idx + NORMAL_FILENO_BASE) = .ok ((Slots.get s.files idx).map fun file => (idx, file)) := by
  rw [Env.fileForFd, fdToFileIdx_idx]
  rfl

theorem fileForFd_none (h : leastFd ≤ fd) (hno : s.fileAt fd = none) : s.env.fileForFd fd = .ok none := by
  rcases Int.lt_or_le fd NORMAL_FILENO_BASE with hlow | hle
  · exact fileForFd_low s.env h hlow
  · obtain ⟨idx, rfl⟩ : ∃ idx : Nat, fd = idx + NORMAL_FILENO_BASE := ⟨(fd - NORMAL_FILENO_BASE).toNat, by omega⟩
    rw [fileAt_idx] at hno
    rw [fileForFd_idx, hno]
    rfl

theorem fileForFd_eq_some {env : Env} {file} (h : env.fileForFd fd = .ok (some file)) :
    fd = file.1 + NORMAL_FILENO_BASE ∧ Slots.get env.files file.1 = some file.2 := by
  rcases Int.lt_or_le fd leastFd with hsl | hla
  · rw [fileForFd_small env hsl] at h
    cases h
  · rcases Int.lt_or_le fd NORMAL_FILENO_BASE with hlow | hle
    · rw [fileForFd_low env hla hlow] at h
      cases h
    · obtain ⟨idx, rfl⟩ : ∃ idx : Nat, fd = idx + NORMAL_FILENO_BASE := ⟨(fd - NORMAL_FILENO_BASE).toNat, by omega⟩
      rw [fileForFd_idx] at h
      obtain ⟨found, hfn, rfl⟩ := Option.map_eq_some_iff.mp (Except.ok.inj h)
      exact ⟨rfl, hfn⟩

end Slots

/-! ### What a call does to the table -/

section Effects
variable {s t : Posix} {result : Int}
variable {env after : Env} {buffer size : Nat} {offset whence cmd : Int} {file : PosixFileHostObject}
variable {host : HostOp → Bool} {handle : HostFile} {flags : OpenFlag}

theorem ofIo_eq_ok {α : Type} {x} {a : α} : ofIo x = .ok a ↔ x = .ok a := by
  cases x <;> simp [ofIo]

inductive Changes (fd : Int) (s t : Posix) : Prop where
  | same (files : t.env.files = s.env.files)
  | file {file : Nat × PosixFileHostObject} (new : PosixFileHostObject) (found : s.env.fileForFd fd = .ok (some file))
      (files : t.env.files = s.env.files.set file.1 (some new))

theorem Changes.slots (h : Changes fd s t) : Slots.Same s.env.files t.env.files := by
  cases h with
  | same files => exact files ▸ .refl _
  | file new found files => exact files ▸ Slots.same_set (fileForFd_eq_some found).2 new

/-- A seek fails, or moves the file and forgets that its end has been reached. -/
inductive Seeks (s : Posix) (fd offset whence : Int) : Int → Posix → Prop where
  | failed {t : Posix} (files : t.env.files = s.env.files) : Seeks s fd offset whence (-1) t
  | moved {t : Posix} {guestFile : GuestFile} (file : Nat × PosixFileHostObject) (start position : Nat)
      (found : s.env.fileForFd fd = .ok (some file)) (counted : Env.startPosition file.2.file whence = .ok (.ok start))
      (sum : start + offset = position) (le : position ≤ offMax) (seeks : file.2.file.seek position = .ok (.ok guestFile))
      (files : t.env.files = s.env.files.set file.1 (some { file.2 with file := guestFile, reachedEof := false })) :
      Seeks s fd offset whence position t

theorem Seeks.changes {v : Int} (h : Seeks s fd offset whence v t) : Changes fd s t := by
  cases h with
  | failed files => exact .same files
  | moved file start position found counted sum le seeks files => exact .file _ found files

section
variable (s : Posix) (fd : Int)

theorem read_changes (buffer size : Nat) : Ensures (s.read fd buffer size) fun p => Changes fd s p.2 := by
  suffices h : Ensures (s.env.read fd buffer size) fun r => Changes fd s { s with env := r.2 } from
    .next fun r hr => h.ok (ofIo_eq_ok.mp hr)
  refine .ite (fun _ => .same rfl) fun _ => Ensures.next fun found hfn => ?_
  rcases found with _ | file
  · exact .same rfl
  · refine .ite (fun _ => trivial) fun _ => Ensures.next fun data _ => ?_
    rcases data with ⟨⟩ | data
    · exact .same rfl
    · exact .next fun mem _ => .ite (fun _ => .file _ hfn rfl) fun _ => trivial

theorem lseek_seeks (offset whence : Int) :
    Ensures (s.lseek fd offset whence) fun p => Seeks s fd offset whence p.1 p.2 := by
  suffices h : Ensures (s.env.lseek fd offset whence) fun r => Seeks s fd offset whence r.1 { s with env := r.2 } from
    .next fun r hr => h.ok (ofIo_eq_ok.mp hr)
  refine .next fun found hfn => ?_
  rcases found with _ | file
  · exact .failed rfl
  · refine .ite (fun _ => .failed rfl) fun _ => Ensures.next fun start hsr => ?_
    rcases start with errno | start
    · exact .failed rfl
    · refine .ite (fun _ => .failed rfl) fun hlow => .ite (fun _ => .failed rfl) fun hhg => Ensures.next fun moved hmo => ?_
      rcases moved with ⟨⟩ | moved
      · exact .failed rfl
      · obtain ⟨position, hpst⟩ := Int.eq_ofNat_of_zero_le (Int.not_lt.mp hlow)
        rw [hpst] at hmo hhg ⊢
        exact .moved file start position hfn hsr hpst (by omega) hmo rfl

theorem write_changes (buffer size : Nat) (answer : WriteAnswer) :
    Ensures (s.write fd buffer size answer) fun p => Changes fd s p.2 := by
  refine .next fun found hfn => ?_
  rcases found with _ | file
  · trivial
  · refine .ite (fun _ => trivial) fun _ => Ensures.next fun written _ => ?_
    rcases written with _ | written
    · exact .same rfl
    · exact .ite (fun _ => .file _ (ofIo_eq_ok.mp hfn) rfl) fun _ => trivial

theorem setFd_same (flags : Int) : Ensures (s.setFd fd flags) fun p => Slots.Same s.env.files p.2.env.files := by
  refine .ite (fun _ => trivial) fun _ => Ensures.next fun found hfn => ?_
  rcases found with _ | file
  · trivial
  · exact Slots.same_set (fileForFd_eq_some (ofIo_eq_ok.mp hfn)).2 _

theorem lockCommand_same (cmd : Int) (ptr : Nat) :
    Ensures (s.lockCommand fd cmd ptr) fun p => Slots.Same s.env.files p.2.env.files := by
  refine .next fun lock _ => .next fun errno _ => ?_
  rcases errno with _ | errno
  · exact .ite (fun _ => .refl _) fun _ => .refl _
  · exact .refl _

theorem fcntl_same (cmd : Int) (arg : Nat) :
    Ensures (s.fcntl fd cmd arg) fun p => Slots.Same s.env.files p.2.env.files := by
  refine .ite (fun _ => .refl _) fun _ => .ite (fun _ => Ensures.next fun found _ => ?_) fun _ => ?_
  · rcases found with _ | file
    · trivial
    · exact .refl _
  · refine .ite (fun _ => setFd_same (s.setErrno 0) fd _) fun _ => ?_
    refine .ite (fun _ => lockCommand_same (s.setErrno 0) fd cmd arg) fun _ => ?_
    refine .ite (fun _ => ?_) fun _ => .ite (fun _ => .refl _) fun _ => trivial
    exact .ite (fun _ => .refl _) fun _ => trivial

end

theorem findOrCreateFd_eq_ok (h : s.findOrCreateFd file = .ok (result, t)) :
    ∃ idx : Nat, result = idx + NORMAL_FILENO_BASE ∧ Slots.Placed s.env.files file idx t.env.files := by
  obtain ⟨fd, hfd, h⟩ := bind_eq_ok.mp h
  cases h
  rw [fileIdxToFd] at hfd
  split at hfd
  · cases hfd
    exact ⟨_, rfl, Slots.place_placed _ _⟩
  · cases hfd

def Opening (s : Posix) (result : Int) (t : Posix) : Prop := (result = -1 ∧ t.env.files = s.env.files) ∨
    ∃ file, ∃ idx : Nat, result = idx + NORMAL_FILENO_BASE ∧ Slots.Placed s.env.files file idx t.env.files

theorem openFile_opening {path}
    (h : s.openFile host handle path flags = .ok (result, t)) : Opening s result t := by
  obtain ⟨opened, -, h⟩ := bind_eq_ok.mp h
  cases hoe : opened.1 with
  | ok file =>
    rw [hoe] at h
    obtain ⟨idx, hidx, hpl⟩ := findOrCreateFd_eq_ok h
    exact .inr ⟨_, idx, hidx, hpl⟩
  | error e =>
    simp only [hoe] at h
    split at h
    · cases h
      exact .inl ⟨rfl, rfl⟩
    · cases h

theorem open_opening (s : Posix) (path : Nat) : Ensures (s.open host handle path flags) fun p => Opening s p.1 p.2 := by
  refine .ite (fun _ => trivial) fun _ => .ite (fun _ => .inl ⟨rfl, rfl⟩) fun _ => ?_
  refine .ite (fun _ => trivial) fun _ => ?_
  cases Objc.Selectors.cstrAt (s.setErrno 0).env.mem.bytes path with
  | error e => trivial
  | ok bytes =>
    dsimp only
    cases bytes.toByteArray.utf8Decode? with
    | none => exact .inl ⟨rfl, rfl⟩
    | some chars =>
      refine Ensures.next fun opened hoe => ?_
      have hopn := openFile_opening hoe
      exact .ite (fun _ => hopn) fun _ => hopn

theorem close_std (h : fd = STDIN_FILENO ∨ fd = STDOUT_FILENO ∨ fd = STDERR_FILENO) (synced : Bool) :
    s.close fd synced = .ok (0, s.setErrno 0) := by
  rw [close, if_pos h]

theorem close_dead (h : ¬(fd = STDIN_FILENO ∨ fd = STDOUT_FILENO ∨ fd = STDERR_FILENO))
    (hno : s.fileAt fd = none) (synced : Bool) : s.close fd synced = .ok (-1, (s.setErrno 0).setErrno EBADF) := by
  rw [close, if_neg h]
  split
  · rfl
  · rename_i hneg
    have hle : NORMAL_FILENO_BASE ≤ fd := by
      simp only [STDIN_FILENO, STDOUT_FILENO, STDERR_FILENO, NORMAL_FILENO_BASE] at h ⊢
      omega
    obtain ⟨idx, rfl⟩ : ∃ idx : Nat, fd = idx + NORMAL_FILENO_BASE := ⟨(fd - NORMAL_FILENO_BASE).toNat, by omega⟩
    rw [fileAt_idx, Slots.get] at hno
    rw [fdToFileIdx_idx]
    cases hslt : s.env.files[idx]? with
    | none => simp [ofIo, hslt]
    | some file =>
      rw [hslt] at hno
      cases file with
      | none => simp [ofIo, hslt]
      | some file => cases hno

theorem close_live {idx : Nat} (h : Slots.get s.env.files idx = some file) (synced : Bool) :
    s.close (idx + NORMAL_FILENO_BASE) synced =
      .ok (closeResult file synced, (s.setErrno 0).setFiles (s.env.files.set idx none)) := by
  have hstd : ¬((idx : Int) + NORMAL_FILENO_BASE = STDIN_FILENO ∨ (idx : Int) + NORMAL_FILENO_BASE = STDOUT_FILENO ∨
      (idx : Int) + NORMAL_FILENO_BASE = STDERR_FILENO) := by
    simp only [STDIN_FILENO, STDOUT_FILENO, STDERR_FILENO, NORMAL_FILENO_BASE]
    omega
  have hneg : ¬(idx : Int) + NORMAL_FILENO_BASE < 0 := by
    simp only [STDERR_FILENO, NORMAL_FILENO_BASE]
    omega
  rw [close, if_neg hstd, if_neg hneg, fdToFileIdx_idx]
  simp [ofIo, Slots.getElem?_of_get h]

end Effects

section Runs
variable {s t : Posix} {log : List Event} {file : PosixFileHostObject} {idx : Nat}

theorem live_append (log : List Event) (event : Event) : live (log ++ [event]) = event.apply (live log) := by
  rw [live, foldl_append]
  rfl

/-- The events say which slots there are, and which of them are in use. -/
structure Tracks (log : List Event) (s : Posix) : Prop where
  nodup : (live log).Nodup
  live : ∀ fd, fd ∈ live log ↔ (s.fileAt fd).isSome
  opened : ∀ fd, .opened fd ∈ log ↔ ∃ idx, idx < s.env.files.length ∧ fd = idx + NORMAL_FILENO_BASE

section
variable (h : Tracks log s)
include h

theorem Tracks.base_le (hfd : fd ∈ Posix.live log) : NORMAL_FILENO_BASE ≤ fd := by
  obtain ⟨file, hfi⟩ := Option.isSome_iff_exists.mp ((h.live fd).mp hfd)
  obtain ⟨idx, rfl, -⟩ := fileAt_eq_some hfi
  omega

omit h in
theorem Tracks.start (h : s.env.files = []) : Tracks [] s := by
  refine ⟨nodup_nil, fun fd => ?_, fun fd => ?_⟩
  · have hno : s.fileAt fd = none := by
      rw [fileAt, h]
      split <;> rfl
    simp [Posix.live, hno]
  · simp [h]

theorem Tracks.same (hsm : Slots.Same s.env.files t.env.files) : Tracks log t := by
  refine ⟨h.nodup, fun fd => ?_, fun fd => ?_⟩
  · rw [h.live, fileAt, fileAt]
    split
    · rw [hsm.used]
    · rfl
  · rw [h.opened, hsm.length]

theorem Tracks.isLeast {files}
    (hpl : Slots.Placed s.env.files file idx files) :
    IsLeast {d | NORMAL_FILENO_BASE ≤ d ∧ d ∉ Posix.live log} ((idx : Int) + NORMAL_FILENO_BASE) := by
  refine ⟨⟨by omega, ?_⟩, ?_⟩
  · rw [h.live, fileAt_idx, hpl.free]
    exact Bool.false_ne_true
  · intro d hd
    by_contra hlt
    obtain ⟨j, rfl⟩ : ∃ j : Nat, d = j + NORMAL_FILENO_BASE := ⟨(d - NORMAL_FILENO_BASE).toNat, by have := hd.1; omega⟩
    obtain ⟨b, hb⟩ := hpl.used j (by omega)
    refine hd.2 ((h.live _).mpr ?_)
    rw [fileAt_idx, hb]
    rfl

omit h in
theorem fileAt_placed (hpl : Slots.Placed s.env.files file idx t.env.files)
    (hfd : fd ≠ idx + NORMAL_FILENO_BASE) : t.fileAt fd = s.fileAt fd := by
  rw [fileAt, fileAt]
  split
  · exact hpl.same _ (by omega)
  · rfl

theorem Tracks.placed (hpl : Slots.Placed s.env.files file idx t.env.files) :
    Tracks (log ++ [.opened (idx + NORMAL_FILENO_BASE)]) t := by
  have hnew : t.fileAt ((idx : Int) + NORMAL_FILENO_BASE) = some file := by rw [fileAt_idx, hpl.new]
  refine ⟨?_, fun fd => ?_, fun fd => ?_⟩
  · rw [live_append, Event.apply]
    exact nodup_append.mpr ⟨h.nodup, nodup_singleton _, fun a ha b hb heq =>
      (h.isLeast hpl).1.2 (mem_singleton.mp hb ▸ heq ▸ ha)⟩
  · rw [live_append, Event.apply, mem_append, mem_singleton, h.live]
    by_cases hfd : fd = idx + NORMAL_FILENO_BASE
    · simp [hfd, hnew]
    · rw [fileAt_placed hpl hfd, or_iff_left hfd]
  · rw [mem_append, mem_singleton, h.opened, hpl.length, Event.opened.injEq]
    have hle := hpl.le
    constructor
    · rintro (⟨j, hj, rfl⟩ | rfl)
      · exact ⟨j, lt_max_of_lt_left hj, rfl⟩
      · exact ⟨idx, lt_max_of_lt_right (Nat.lt_succ_self idx), rfl⟩
    · rintro ⟨j, hj, rfl⟩
      rcases lt_max_iff.mp hj with hj | hj
      · exact .inl ⟨j, hj, rfl⟩
      · by_cases heq : j = idx
        · exact .inr (by rw [heq])
        · exact .inl ⟨j, by omega, rfl⟩

theorem Tracks.closed_dead (hno : s.fileAt fd = none) (hfe : t.env.files = s.env.files) :
    Tracks (log ++ [.closed fd]) t := by
  have hsm : Tracks log t := h.same (hfe ▸ .refl _)
  have hnot : fd ∉ Posix.live log := by
    rw [h.live, hno]
    exact Bool.false_ne_true
  have hlv : Posix.live (log ++ [.closed fd]) = Posix.live log := by
    rw [live_append, Event.apply, filter_eq_self]
    exact fun d hd => decide_eq_true (ne_of_mem_of_not_mem hd hnot)
  refine ⟨hlv ▸ hsm.nodup, fun d => hlv ▸ hsm.live d, fun d => ?_⟩
  rw [← hsm.opened]
  simp

omit h in
theorem fileAt_set {o} (h : o.isSome → idx < s.env.files.length)
    (hfe : t.env.files = s.env.files.set idx o) (fd : Int) :
    t.fileAt fd = if fd = idx + NORMAL_FILENO_BASE then o else s.fileAt fd := by
  rw [fileAt, fileAt, hfe, Slots.get_set h]
  by_cases hfd : fd = idx + NORMAL_FILENO_BASE
  · rw [if_pos hfd, if_pos (show (fd - NORMAL_FILENO_BASE).toNat = idx by omega), if_pos (by omega)]
  · rw [if_neg hfd]
    split
    · rw [if_neg (by omega)]
    · rfl

theorem Tracks.closed_live :
    Tracks (log ++ [.closed (idx + NORMAL_FILENO_BASE)]) (s.setFiles (s.env.files.set idx none)) := by
  refine ⟨?_, fun fd => ?_, fun fd => ?_⟩
  · rw [live_append]
    exact h.nodup.filter _
  · rw [live_append, Event.apply, mem_filter, decide_eq_true_eq, h.live,
      fileAt_set (t := s.setFiles _) (o := none) (by simp) rfl]
    by_cases hfd : fd = idx + NORMAL_FILENO_BASE
    · simp [hfd]
    · simp [hfd]
  · have hln : (s.setFiles (s.env.files.set idx none)).env.files.length = s.env.files.length := length_set
    rw [hln, ← h.opened]
    simp

theorem Tracks.call {c} {result : Int} (hcl : s.call c = .ok (result, t)) : Tracks (log ++ note s c result t) t := by
  cases c with
  | «open» path flags host handle =>
    rcases (open_opening s path).ok hcl with ⟨rfl, hfe⟩ | ⟨file, idx, rfl, hpl⟩
    · rw [note, if_neg (by simp), append_nil]
      exact h.same (hfe ▸ .refl _)
    · rw [note, if_pos (by simp only [NORMAL_FILENO_BASE, STDERR_FILENO]; omega)]
      exact h.placed hpl
  | close fd synced =>
    cases hfi : s.fileAt fd with
    | none =>
      have hcls : s.close fd synced = .ok (result, t) := hcl
      by_cases hstd : fd = STDIN_FILENO ∨ fd = STDOUT_FILENO ∨ fd = STDERR_FILENO
      · rw [close_std hstd] at hcls
        cases hcls
        exact h.closed_dead hfi rfl
      · rw [close_dead hstd hfi] at hcls
        cases hcls
        exact h.closed_dead hfi rfl
    | some file =>
      obtain ⟨idx, rfl, hget⟩ := fileAt_eq_some hfi
      have hcls : s.close (idx + NORMAL_FILENO_BASE) synced = .ok (result, t) := hcl
      rw [close_live hget] at hcls
      cases hcls
      have herr : Tracks log (s.setErrno 0) := h.same (.refl _)
      exact herr.closed_live
  | read fd buffer size => exact (append_nil log).symm ▸ h.same ((read_changes s fd buffer size).ok hcl).slots
  | write fd buffer size answer => exact (append_nil log).symm ▸ h.same ((write_changes s fd buffer size answer).ok hcl).slots
  | lseek fd offset whence => exact (append_nil log).symm ▸ h.same ((lseek_seeks s fd offset whence).ok hcl).changes.slots
  | fcntl fd cmd arg => exact (append_nil log).symm ▸ h.same ((fcntl_same s fd cmd arg).ok hcl)

end
end Runs

/-! ### Descriptors that are not in use -/

section Dead
variable {s : Posix} (hno : s.fileAt fd = none) {buffer size : Nat} {cmd : Int}
include hno

theorem lookup_dead {α : Type} {f} {e}
    (hf : f none = .error e) (a : α) : (ofIo (s.env.fileForFd fd) >>= f) ≠ .ok a := by
  intro h
  obtain ⟨found, hfn, h⟩ := bind_eq_ok.mp h
  cases found with
  | none =>
    rw [hf] at h
    cases h
  | some file =>
    obtain ⟨rfl, hget⟩ := fileForFd_eq_some (ofIo_eq_ok.mp hfn)
    rw [fileAt_idx, hget] at hno
    cases hno

theorem read_dead : Fails s (s.read fd buffer size) ↔ buffer = 0 ∨ leastFd ≤ fd := by
  constructor
  · rintro ⟨t, h, -⟩
    by_contra hnot
    obtain ⟨hbf, hsl⟩ := not_or.mp hnot
    rw [Posix.read, Env.read, if_neg hbf, fileForFd_small _ (Int.not_le.mp hsl)] at h
    cases h
  · intro h
    refine ⟨s.setErrno 0, ?_, fun _ => rfl⟩
    by_cases hbf : buffer = 0
    · rw [Posix.read, Env.read, if_pos hbf]
      rfl
    · have hfn : (s.env.setErrno 0).fileForFd fd = .ok none := fileForFd_none (h.resolve_left hbf) hno
      rw [Posix.read, Env.read, if_neg hbf, hfn]
      rfl

theorem lseek_dead {offset whence : Int} : Fails s (s.lseek fd offset whence) ↔ leastFd ≤ fd := by
  constructor
  · rintro ⟨t, h, -⟩
    by_contra hsl
    rw [Posix.lseek, Env.lseek, fileForFd_small _ (Int.not_le.mp hsl)] at h
    cases h
  · intro h
    refine ⟨s.setErrno EBADF, ?_, fun _ => rfl⟩
    rw [Posix.lseek, Env.lseek, fileForFd_none h hno]
    rfl

theorem write_dead {answer} : ¬Fails s (s.write fd buffer size answer) := by
  rintro ⟨t, h, -⟩
  exact lookup_dead hno rfl _ h

theorem setFd_dead {flags : Int} (result : Int × Posix) : s.setFd fd flags ≠ .ok result := by
  rw [setFd]
  split
  · intro h
    cases h
  · exact lookup_dead hno rfl result

theorem unwrapPosition_dead (position : GuestFile → Except Panic (Except ErrorKind Nat)) (n : Nat) :
    s.unwrapPosition fd position ≠ .ok n := lookup_dead hno rfl n

/-- Where a lock is refused although it would need the file, the position of the file is not looked at. -/
theorem validateLock_dead {lock} : (∃ errno, s.validateLock fd lock = .ok (some errno)) ↔
      ¬(lock.lockType = F_RDLCK ∨ lock.lockType = F_UNLCK ∨ lock.lockType = F_WRLCK) ∨
        ¬(lock.whence = SEEK_SET ∨ lock.whence = SEEK_CUR ∨ lock.whence = SEEK_END) ∨
        lock.whence = SEEK_SET ∧ lock.start < 0 := by
  by_cases hty : lock.lockType = F_RDLCK ∨ lock.lockType = F_UNLCK ∨ lock.lockType = F_WRLCK
  · rw [validateLock, if_neg (not_not.mpr hty), or_iff_right (not_not.mpr hty)]
    by_cases hset : lock.whence = SEEK_SET
    · rw [if_pos hset, or_iff_right (not_not.mpr (.inl hset)), and_iff_right hset]
      by_cases hsr : lock.start < 0
      · simp [hsr]
      · simp [hsr]
    · have hnot : ¬(lock.whence = SEEK_SET ∧ lock.start < 0) := fun h => hset h.1
      rw [if_neg hset, or_iff_left hnot]
      by_cases hcur : lock.whence = SEEK_CUR
      · rw [if_pos hcur]
        refine iff_of_false ?_ (not_not.mpr (.inr (.inl hcur)))
        rintro ⟨errno, h⟩
        obtain ⟨n, hn, -⟩ := bind_eq_ok.mp h
        exact unwrapPosition_dead hno _ n hn
      · rw [if_neg hcur]
        by_cases hend : lock.whence = SEEK_END
        · rw [if_pos hend]
          refine iff_of_false ?_ (not_not.mpr (.inr (.inr hend)))
          rintro ⟨errno, h⟩
          obtain ⟨n, hn, -⟩ := bind_eq_ok.mp h
          exact unwrapPosition_dead hno _ n hn
        · rw [if_neg hend]
          exact iff_of_true ⟨_, rfl⟩ (fun h => h.elim hset fun h => h.elim hcur hend)
  · rw [validateLock, if_pos hty]
    exact iff_of_true ⟨_, rfl⟩ (.inl hty)

theorem lockCommand_dead {ptr : Nat} : Fails s (s.lockCommand fd cmd ptr) ↔ InvalidLock s ptr := by
  constructor
  · rintro ⟨t, h, -⟩
    obtain ⟨lock, hlo, h⟩ := bind_eq_ok.mp h
    obtain ⟨errno, herr, h⟩ := bind_eq_ok.mp h
    cases errno with
    | some errno => exact ⟨lock, hlo, (validateLock_dead hno).mp ⟨errno, herr⟩⟩
    | none =>
      simp only at h
      split at h <;> cases h
  · rintro ⟨lock, hlo, hinv⟩
    obtain ⟨errno, herr⟩ := (validateLock_dead hno).mpr hinv
    refine ⟨s.setErrno errno, ?_, fun _ => rfl⟩
    rw [lockCommand, hlo, ok_bind, herr]
    rfl

theorem fcntl_dead {arg : Nat} : Fails s (s.fcntl fd cmd arg) ↔
      (NORMAL_FILENO_BASE ≤ fd ∧ s.env.files.length ≤ (fd - NORMAL_FILENO_BASE).toNat) ∨
        (cmd = F_GETLK ∨ cmd = F_SETLK) ∧ InvalidLock s arg := by
  have herr : (s.setErrno 0).fileAt fd = none := hno
  by_cases hslt : NORMAL_FILENO_BASE ≤ fd ∧ s.env.files.length ≤ (fd - NORMAL_FILENO_BASE).toNat
  · refine iff_of_true ⟨(s.setErrno 0).setErrno EBADF, ?_, fun _ => rfl⟩ (.inl hslt)
    exact if_pos hslt
  rw [or_iff_right hslt]
  have hfcn : ¬(NORMAL_FILENO_BASE ≤ fd ∧ (s.setErrno 0).env.files.length ≤ (fd - NORMAL_FILENO_BASE).toNat) := hslt
  rw [fcntl, if_neg hfcn]
  by_cases hlo : cmd = F_GETLK ∨ cmd = F_SETLK
  · have hget : cmd ≠ F_GETFD := by rcases hlo with rfl | rfl <;> decide
    have hset : cmd ≠ F_SETFD := by rcases hlo with rfl | rfl <;> decide
    rw [if_neg hget, if_neg hset, if_pos hlo, and_iff_right hlo]
    exact lockCommand_dead herr
  · refine iff_of_false ?_ fun h => hlo h.1
    rintro ⟨t, h, -⟩
    split at h
    · exact lookup_dead herr rfl _ h
    · split at h
      · exact setFd_dead herr _ h
      · split at h
        · split at h <;> cases h
        · split at h <;> cases h

end Dead

section Calls
variable {s : Posix} {log : List Event}

section
variable (h : Tracks log s)
include h

theorem Tracks.fileAt_none (hfd : fd ∉ Posix.live log) : s.fileAt fd = none := by
  rw [h.live] at hfd
  simpa using hfd

theorem Tracks.not_live (hno : s.fileAt fd = none) : fd ∉ Posix.live log := by
  rw [h.live, hno]
  exact Bool.false_ne_true

theorem Tracks.close_answers (fd : Int) (synced : Bool) :
    Answers log s (.close fd synced) ↔ Careful log s (.close fd synced) := by
  constructor
  · intro han hstd
    have hdea : fd ∉ Posix.live log := by
      intro hlv
      have hle := h.base_le hlv
      simp only [STDIN_FILENO, STDOUT_FILENO, STDERR_FILENO, NORMAL_FILENO_BASE] at hstd hle
      omega
    obtain ⟨t, hcls, -⟩ := han.1 hdea
    rw [close_std hstd] at hcls
    cases hcls
  · intro hcrf
    refine ⟨fun hdea => ⟨_, close_dead hcrf (h.fileAt_none hdea) synced, fun _ => rfl⟩, fun hlv => ?_⟩
    obtain ⟨file, hfi⟩ := Option.isSome_iff_exists.mp ((h.live fd).mp hlv)
    obtain ⟨idx, rfl, hget⟩ := fileAt_eq_some hfi
    have hfrd : ∀ d, ((s.setErrno 0).setFiles (s.env.files.set idx none)).fileAt d =
        if d = idx + NORMAL_FILENO_BASE then none else s.fileAt d := fileAt_set (s := s.setErrno 0) (by simp) rfl
    refine ⟨_, _, close_live hget synced, ?_, fun d hd => ?_⟩
    · rw [hfrd, if_pos rfl]
    · rw [hfrd, if_neg hd]

theorem Tracks.open_answers (path : Nat) (flags : OpenFlag) (host : HostOp → Bool) (handle : HostFile) :
    Answers log s (.open path flags host handle) := by
  intro fd t hop hfd
  rcases (open_opening s path).ok hop with ⟨rfl, -⟩ | ⟨file, idx, rfl, hpl⟩
  · exact (hfd rfl).elim
  · refine ⟨h.isLeast hpl, ?_, fun d hd => fileAt_placed hpl hd⟩
    rw [fileAt_idx, hpl.new]
    rfl

theorem Tracks.dead_iff {P Q} (hlv : fd ∈ Posix.live log → Q)
    (hdea : s.fileAt fd = none → (P ↔ Q)) : (fd ∉ Posix.live log → P) ↔ Q := by
  by_cases hfd : fd ∈ Posix.live log
  · exact iff_of_true (fun hnot => (hnot hfd).elim) (hlv hfd)
  · exact (forall_prop_of_true hfd).trans (hdea (h.fileAt_none hfd))

omit h in
theorem leastFd_le_base : leastFd ≤ NORMAL_FILENO_BASE := by decide

theorem Tracks.answers_iff (c : Call) : Answers log s c ↔ Careful log s c := by
  have hbs : ∀ fd ∈ Posix.live log, leastFd ≤ fd := fun fd hfd => leastFd_le_base.trans (h.base_le hfd)
  cases c with
  | «open» path flags host handle => exact iff_of_true (h.open_answers path flags host handle) trivial
  | close fd synced => exact h.close_answers fd synced
  | read fd buffer size => exact h.dead_iff (fun hfd => .inr (hbs fd hfd)) fun hno => read_dead hno
  | write fd buffer size answer =>
    exact h.dead_iff id fun hno => iff_of_false (write_dead hno) (h.not_live hno)
  | lseek fd offset whence => exact h.dead_iff (hbs fd) fun hno => lseek_dead hno
  | fcntl fd cmd arg =>
    refine h.dead_iff .inl fun hno => (fcntl_dead hno).trans ?_
    have hslt : NORMAL_FILENO_BASE ≤ fd ∧ s.env.files.length ≤ (fd - NORMAL_FILENO_BASE).toNat ↔
        NORMAL_FILENO_BASE ≤ fd ∧ .opened fd ∉ log := by
      refine and_congr_right fun hle => ?_
      rw [h.opened]
      constructor
      · rintro hln ⟨idx, hidx, rfl⟩
        omega
      · intro hnot
        by_contra hlt
        exact hnot ⟨(fd - NORMAL_FILENO_BASE).toNat, by omega, by omega⟩
    rw [hslt, Careful, or_iff_right (h.not_live hno)]

/-- The table tells an open descriptor from one that has never been opened, and not from one that has been closed. -/
theorem Tracks.isFdOpen_iff (fd : Int) :
    s.isFdOpen fd = .ok (decide (fd ∈ Posix.live log)) ↔ leastFd ≤ fd ∧ (.opened fd ∈ log → fd ∈ Posix.live log) := by
  rcases Int.lt_or_le fd leastFd with hsl | hla
  · refine iff_of_false ?_ fun hcd => Int.not_le.mpr hsl hcd.1
    rw [isFdOpen, slot, fdToFileIdx_small hsl]
    intro hop
    cases hop
  · rw [and_iff_right hla]
    rcases Int.lt_or_le fd NORMAL_FILENO_BASE with hlow | hle
    · have hdea : fd ∉ Posix.live log := fun hlv => Int.not_le.mpr hlow (h.base_le hlv)
      have hnvr : .opened fd ∉ log := by
        rw [h.opened]
        omega
      rw [isFdOpen, slot, fdToFileIdx_low hla hlow]
      exact iff_of_true (by simp [ofIo, hdea]) fun hoe => (hnvr hoe).elim
    · obtain ⟨idx, rfl⟩ : ∃ idx : Nat, fd = idx + NORMAL_FILENO_BASE := ⟨(fd - NORMAL_FILENO_BASE).toNat, by omega⟩
      have hoe : .opened ((idx : Int) + NORMAL_FILENO_BASE) ∈ log ↔ idx < s.env.files.length := by
        rw [h.opened]
        refine ⟨?_, fun hlt => ⟨idx, hlt, rfl⟩⟩
        omega
      have hop : s.isFdOpen ((idx : Int) + NORMAL_FILENO_BASE) = .ok (decide (idx < s.env.files.length)) := by
        rw [isFdOpen, slot, fdToFileIdx_idx]
        refine congrArg Except.ok (Bool.eq_iff_iff.mpr ?_)
        simp
      have hlv : (idx : Int) + NORMAL_FILENO_BASE ∈ Posix.live log → idx < s.env.files.length := by
        rw [h.live, fileAt_idx]
        intro hso
        obtain ⟨file, hfi⟩ := Option.isSome_iff_exists.mp hso
        exact Slots.lt_length_of_get hfi
      rw [hop, hoe, Except.ok.injEq, decide_eq_decide]
      exact ⟨Iff.mp, fun himp => ⟨himp, hlv⟩⟩

end
end Calls

/-- In every state that calls reach from an empty table, the descriptors in use are distinct and at least 3, a new one is
    the least that is free, and closing one affects no other; a call on any other integer reports a failure exactly if the
    call is careful, and `isFdOpen` tells it unless it has been closed. -/
theorem answers_iff_of_logs {s₀ s : Posix} {log : List Event} (hstart : s₀.env.files = [])
    (hrun : Logs Posix.call (fun _ _ => True) note s₀ log s) :
    (live log).Nodup ∧ (∀ fd ∈ live log, NORMAL_FILENO_BASE ≤ fd) ∧ (∀ c, Answers log s c ↔ Careful log s c) ∧
      ∀ fd, s.isFdOpen fd = .ok (decide (fd ∈ live log)) ↔ leastFd ≤ fd ∧ (.opened fd ∈ log → fd ∈ live log) := by
  have htracks : Tracks log s := hrun.invariant (.start hstart) fun _ _ _ _ _ h _ hcall => h.call hcall
  exact ⟨htracks.nodup, fun fd hfd => htracks.base_le hfd, htracks.answers_iff, htracks.isFdOpen_iff⟩

def sample : Posix where
  env :=
    { currentThread := 0
      mem := { bytes := Mem.overwrite (fun _ => 0) 1 [47, 97], heapAllocator := none,
               vmAllocator := { usedChunks := .empty, unusedChunks := .new Mem.pageSize }, zeroMemoryOnFree := true }
      errnos := fun _ => 0, files := [], fileStreams := fun _ => none, fileFd := fun _ => 0 }
  fs := { root := .directory [] (some [['h']]), workingDirectory := ['/'], homeDirectory := ['/'] }

theorem sample_runs : ∃ s, Logs Posix.call (fun _ _ => True) note sample [.opened 3, .closed 3] s ∧ s.env.files = [none] := by
  obtain ⟨s, hop, hfe⟩ : ∃ s, sample.call (.open 1 (O_RDWR ||| O_CREAT) (fun _ => true) ⟨[], 0⟩) = .ok (3, s) ∧
      s.env.files = [some ⟨.file ⟨[], 0⟩, true, false, 0⟩] := ⟨_, by with_unfolding_all rfl, rfl⟩
  have hget : Slots.get s.env.files 0 = some ⟨.file ⟨[], 0⟩, true, false, 0⟩ := by
    rw [hfe]
    rfl
  have hcls : s.call (.close 3 true) = .ok (0, (s.setErrno 0).setFiles (s.env.files.set 0 none)) := close_live hget true
  refine ⟨_, (Logs.start.step trivial hop).step trivial hcls, ?_⟩
  rw [hfe]
  rfl

/-- After that `lseek` on the descriptor 3 reports a failure, as it should. -/
theorem answers_iff_of_logs_sample : ∃ s, Logs Posix.call (fun _ _ => True) note sample [.opened 3, .closed 3] s ∧
    live [.opened 3, .closed 3] = [] ∧ Answers [.opened 3, .closed 3] s (.lseek 3 0 0) := by
  obtain ⟨s, hrun, -⟩ := sample_runs
  have hleast : leastFd ≤ 3 := by decide
  exact ⟨s, hrun, rfl, ((answers_iff_of_logs rfl hrun).2.2.1 (.lseek 3 0 0)).mpr hleast⟩

/-- The descriptor 3 has been closed. It counts as open, and writing to it and asking for its flags stop the emulator. -/
theorem closed_descriptor_in_use : ∃ s, Logs Posix.call (fun _ _ => True) note sample [.opened 3, .closed 3] s ∧
    3 ∉ live [.opened 3, .closed 3] ∧ s.isFdOpen 3 = .ok true ∧ s.write 3 1 0 none = .error .unknownFd ∧
      s.fcntl 3 F_GETFD 0 = .error .unknownFd ∧ s.fcntl 3 F_RDADVISE 0 = .ok (0, s.setErrno 0) := by
  obtain ⟨s, hrun, hfiles⟩ := sample_runs
  have hnone : s.env.fileForFd 3 = .ok none := by
    rw [Env.fileForFd, hfiles]
    rfl
  have herrno : (s.setErrno 0).env.fileForFd 3 = .ok none := hnone
  have hslot : ¬(NORMAL_FILENO_BASE ≤ 3 ∧ (s.setErrno 0).env.files.length ≤ ((3 : Int) - NORMAL_FILENO_BASE).toNat) := by
    rw [setErrno_files, hfiles]
    decide
  refine ⟨s, hrun, by decide, ?_, ?_, ?_, ?_⟩
  · rw [isFdOpen, slot, hfiles]
    rfl
  · rw [write, herrno]
    rfl
  · rw [fcntl, if_neg hslot, if_pos rfl, herrno]
    rfl
  · rw [fcntl, if_neg hslot]
    rfl

end Posix
end TouchHLE.Libc
