import TouchHLE.Theorems.Libc.Descriptors
import TouchHLE.Libc.Stdio

/-! Asking for a position, and reading and writing at one. All of it is done with `lseek`, which forgets that the end of the
    file has been reached. -/

namespace TouchHLE.Libc
open Lib Function GuestFile

def GuestFile.offset : GuestFile → Option Nat
  | .file f | .ipaBundleFile f | .resourceFile f => some f.position
  | .directory | .socket => none

namespace Posix

inductive PositionCall where
  | ftell (filePtr : Nat)
  | ftello (filePtr : Nat)
  | fgetpos (filePtr pos : Nat)
  | pread (fd : Int) (buffer size : Nat) (offset : Int)
  | pwrite (fd : Int) (buffer size : Nat) (offset : Int) (answer : WriteAnswer)

def ofEnv (s : Posix) (x : Except Panic (Int × Env)) : Except PosixPanic (Int × Posix) := do
  let result ← ofIo x
  .ok (result.1, { s with env := result.2 })

def positionCall (s : Posix) : PositionCall → Except PosixPanic (Int × Posix)
  | .ftell filePtr => s.ofEnv (s.env.ftell filePtr)
  | .ftello filePtr => s.ofEnv (s.env.ftello filePtr)
  | .fgetpos filePtr pos => s.ofEnv (s.env.fgetpos filePtr pos)
  | .pread fd buffer size offset => s.pread fd buffer size offset
  | .pwrite fd buffer size offset answer => s.pwrite fd buffer size offset answer

def PositionCall.fd (s : Posix) : PositionCall → Int
  | .ftell filePtr | .ftello filePtr | .fgetpos filePtr _ => s.env.fileFd filePtr
  | .pread fd _ _ _ | .pwrite fd _ _ _ _ => fd

/-- The offset and the end-of-file indicator of a descriptor. -/
def cursor (s : Posix) (fd : Int) : Option (Option Nat × Bool) :=
  (s.fileAt fd).map fun file => (file.file.offset, file.reachedEof)

def AtEnd (s : Posix) (fd : Int) : Prop := ∃ position ≤ offMax, s.cursor fd = some (some position, true)

variable {s t : Posix} {fd offset whence v : Int}

theorem startPosition_cur {file} {n : Nat} :
    Env.startPosition file SEEK_CUR = .ok (.ok n) ↔ file.offset = some n := by
  cases file with
  | _ => simp [Env.startPosition, SEEK_CUR, SEEK_SET, streamPosition, offset]

theorem cursor_congr (h : t.env.files = s.env.files) : t.cursor = s.cursor := by
  unfold cursor fileAt
  rw [h]

theorem cursor_set {file} {new}
    (found : s.env.fileForFd fd = .ok (some file)) (files : t.env.files = s.env.files.set file.1 (some new)) :
    t.cursor = update s.cursor fd (some (new.file.offset, new.reachedEof)) := by
  obtain ⟨rfl, hold⟩ := fileForFd_eq_some found
  funext fd'
  rw [cursor, fileAt_set (fun _ => Slots.lt_length_of_get hold) files, update_apply]
  split <;> rfl

theorem Seeks.same (h : Seeks s fd offset whence v t) (hv : v = -1) : t.cursor = s.cursor := by
  cases h with
  | failed files => exact cursor_congr files
  | moved => omega

theorem Changes.cursor_eq (h : Changes fd s t) : ∃ c, t.cursor = update s.cursor fd c := by
  cases h with
  | same files => exact ⟨s.cursor fd, by rw [cursor_congr files, update_eq_self]⟩
  | file new found files => exact ⟨_, cursor_set found files⟩

/-- The offset is what it was, and the end of the file is forgotten. -/
structure Rests (fd : Int) (position : Nat) (s t : Posix) : Prop where
  le : position ≤ offMax
  before : ∃ eof, s.cursor fd = some (some position, eof)
  after : t.cursor = update s.cursor fd (some (some position, false))

theorem Rests.same_iff {position : Nat} (h : Rests fd position s t) : t.cursor = s.cursor ↔ ¬AtEnd s fd := by
  obtain ⟨eof, hbe⟩ := h.before
  constructor
  · rintro hsm ⟨position', -, hend⟩
    rw [← hsm, h.after, update_self] at hend
    cases hend
  · intro hnot
    cases eof with
    | true => exact absurd ⟨position, h.le, hbe⟩ hnot
    | false => rw [h.after, ← hbe, update_eq_self]

theorem offset_of_seek {file guestFile : GuestFile} {position : Nat} (h : file.seek position = .ok (.ok guestFile)) :
    guestFile.offset = some position := by
  cases file with
  | directory | socket => simp [seek] at h
  | _ =>
    cases h
    rfl

theorem tells (h : s.lseek fd 0 SEEK_CUR = .ok (v, t)) :
    (v = -1 ∧ t.cursor = s.cursor ∧ ¬AtEnd s fd) ∨ ∃ position : Nat, v = position ∧ Rests fd position s t := by
  cases (lseek_seeks s fd 0 SEEK_CUR).ok h with
  | failed files =>
    refine .inl ⟨rfl, cursor_congr files, ?_⟩
    rintro ⟨position, hle, hend⟩
    obtain ⟨file, hfi, heq⟩ := Option.map_eq_some_iff.mp hend
    obtain ⟨idx, rfl, hget⟩ := fileAt_eq_some hfi
    have hsr := startPosition_cur.mpr (Prod.mk.inj heq).1
    have hlow : ¬(position : Int) < 0 := by omega
    cases hknd : file.file with
    | directory | socket => simp [hknd, offset] at heq
    | _ =>
      rw [hknd] at hsr
      simp [lseek, Env.lseek, fileForFd_idx, hget, hknd, isSeekable, hsr, seek, ofIo, hlow, Nat.not_lt.mpr hle] at h
  | moved file start position found counted sum le seeks files =>
    obtain rfl : position = start := by omega
    refine .inr ⟨position, rfl, le, ⟨file.2.reachedEof, ?_⟩, by rw [cursor_set found files, offset_of_seek seeks]⟩
    obtain ⟨rfl, hfi⟩ := fileForFd_eq_some found
    rw [cursor, fileAt_idx, hfi, Option.map_some, startPosition_cur.mp counted]

theorem atOffset_same_iff {io}
    (hio : ∀ s, Ensures (io s) fun p => Changes fd s p.2) (h : s.atOffset fd offset io = .ok (v, t)) :
    t.cursor = s.cursor ↔ ¬AtEnd s fd := by
  obtain ⟨⟨original, s₁⟩, hte, h⟩ := bind_eq_ok.mp h
  rcases tells hte with ⟨rfl, hsm, hnot⟩ | ⟨position, rfl, hle, hbe, haf⟩
  · cases h
    exact ⟨fun _ => hnot, fun _ => hsm⟩
  suffices hrst : Rests fd position s t from hrst.same_iff
  refine ⟨hle, hbe, ?_⟩
  dsimp only at h
  rw [if_neg (by omega)] at h
  obtain ⟨⟨there, s₂⟩, hthr, h⟩ := bind_eq_ok.mp h
  have hthr := (lseek_seeks _ _ _ _).ok hthr
  dsimp only at h
  split at h
  · rename_i hfai
    cases h
    rw [hthr.same hfai, haf]
  obtain ⟨⟨count, s₃⟩, hdn, h⟩ := bind_eq_ok.mp h
  obtain ⟨⟨back, s₄⟩, hbc, h⟩ := bind_eq_ok.mp h
  dsimp only at h
  split at h
  · cases h
  rename_i hne
  cases h
  obtain ⟨c, hc⟩ := hthr.changes.cursor_eq
  obtain ⟨c', hc'⟩ := ((hio s₂).ok hdn).cursor_eq
  cases (lseek_seeks _ _ _ _).ok hbc with
  | failed => exact absurd rfl hne
  | moved file start position' found counted sum le seeks files =>
    obtain rfl : start = 0 := by simpa [Env.startPosition] using counted.symm
    obtain rfl : position' = position := by omega
    rw [cursor_set found files, offset_of_seek seeks, hc', hc, haf, update_idem, update_idem, update_idem]

theorem getFileHostObj_files (env : Env) (filePtr : Nat) :
    Ensures (env.getFileHostObj filePtr) fun p => p.2.files = env.files ∧ p.2.fileFd = env.fileFd := by
  unfold Env.getFileHostObj
  cases env.fileStreams filePtr with
  | some object => exact ⟨rfl, rfl⟩
  | none => exact .ite (fun _ => ⟨rfl, rfl⟩) fun _ => trivial

theorem checked (env : Env) (filePtr : Nat) :
    Ensures (env.checkFileObjectLock filePtr) fun e => e.files = env.files ∧ e.fileFd = env.fileFd := by
  refine .next fun p hp => .ite (fun _ => ?_) fun _ => trivial
  exact (getFileHostObj_files env filePtr).ok hp

theorem ftello_same_iff {env : Env} {filePtr : Nat} (h : s.env.ftello filePtr = .ok (v, env)) :
    cursor { s with env } = s.cursor ↔ ¬AtEnd s (s.env.fileFd filePtr) := by
  obtain ⟨env₁, hcc, h⟩ := bind_eq_ok.mp h
  obtain ⟨hfe, hfd⟩ := (checked (s.env.setErrno 0) filePtr).ok hcc
  have hsm : cursor { s with env := env₁ } = s.cursor := cursor_congr hfe
  have hte : lseek { s with env := env₁ } (s.env.fileFd filePtr) 0 SEEK_CUR = .ok (v, { s with env }) := by
    rw [hfd] at h
    simp [lseek, show env₁.lseek (s.env.fileFd filePtr) 0 SEEK_CUR = _ from h, ofIo]
  rw [← hsm, AtEnd, ← hsm]
  rcases tells hte with ⟨-, hcrs, hnot⟩ | ⟨position, -, hrst⟩
  · exact ⟨fun _ => hnot, fun _ => hcrs⟩
  · exact hrst.same_iff

/-- The offsets and the end-of-file indicators are undisturbed exactly if the end of the file has not been reached. -/
theorem positionCall_same_iff (s t : Posix) (call : PositionCall) (v : Int) (h : s.positionCall call = .ok (v, t)) :
    t.cursor = s.cursor ↔ ¬AtEnd s (call.fd s) := by
  cases call with
  | pread fd buffer size offset => exact atOffset_same_iff (fun s => read_changes s fd buffer size) h
  | pwrite fd buffer size offset answer => exact atOffset_same_iff (fun s => write_changes s fd buffer size answer) h
  | ftello filePtr =>
    obtain ⟨⟨v, env⟩, htell, h⟩ := bind_eq_ok.mp h
    cases h
    exact ftello_same_iff (ofIo_eq_ok.mp htell)
  | ftell filePtr =>
    obtain ⟨⟨v, env⟩, hftell, h⟩ := bind_eq_ok.mp h
    cases h
    obtain ⟨⟨v', env'⟩, htell, h⟩ := bind_eq_ok.mp (ofIo_eq_ok.mp hftell)
    dsimp only at h
    split at h
    · cases h
      exact ftello_same_iff htell
    · cases h
  | fgetpos filePtr pos =>
    obtain ⟨⟨v, env⟩, hfgetpos, h⟩ := bind_eq_ok.mp h
    cases h
    obtain ⟨⟨v', env'⟩, htell, h⟩ := bind_eq_ok.mp (ofIo_eq_ok.mp hfgetpos)
    dsimp only at h
    split at h
    · cases h
      exact ftello_same_iff htell
    · obtain ⟨mem, -, h⟩ := bind_eq_ok.mp h
      cases h
      have hiff := ftello_same_iff htell
      exact hiff

def afterByte (reachedEof : Bool) : Posix := sample.setFiles [some ⟨.file ⟨[97], 1⟩, false, reachedEof, 0⟩]

theorem positionCall_same_iff_pread : ∃ t, (afterByte false).positionCall (.pread 3 64 1 0) = .ok (1, t) ∧
    t.cursor = (afterByte false).cursor := by
  obtain ⟨t, h⟩ : ∃ t, (afterByte false).positionCall (.pread 3 64 1 0) = .ok (1, t) := ⟨_, rfl⟩
  refine ⟨t, h, (positionCall_same_iff _ t _ _ h).mpr ?_⟩
  rintro ⟨position, -, hend⟩
  cases hend

/-- Once the end has been reached, reading at an offset makes the descriptor forget it. -/
theorem pread_forgets_end : ∃ t, (afterByte true).positionCall (.pread 3 64 1 0) = .ok (1, t) ∧
    (afterByte true).cursor 3 = some (some 1, true) ∧ t.cursor 3 = some (some 1, false) :=
  ⟨_, rfl, rfl, rfl⟩

end Posix
end TouchHLE.Libc
