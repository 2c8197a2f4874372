import Mathlib.Data.List.GetD
import TouchHLE.Lib.Simulation
import TouchHLE.Libc.Stdio
import TouchHLE.Spec.Stream

/-! # Streams and the abstract stream

`ungetc` moves the file back and `fgetc` moves it forward again, so the position of the file is that of the abstract stream.
`fread` and `fgets` take bytes from the pushbacks and leave the file where it is. While no pushback is pending when they
read, the stream answers every call as the abstract one does. -/

namespace TouchHLE
open List Environment Mem

namespace Mem
variable {bytes : Nat → UInt8} {ptr : Nat} {data : List UInt8}

def Holds (bytes : Nat → UInt8) (ptr : Nat) (data : List UInt8) : Prop := ∀ i b, data[i]? = some b → bytes (ptr + i) = b

theorem holds_overwrite : Holds (overwrite bytes ptr data) ptr data := by
  intro i b hb
  obtain ⟨hi, rfl⟩ := List.getElem?_eq_some_iff.mp hb
  simp [overwrite, hi]

@[simp] theorem overwrite_nil : overwrite bytes ptr [] = bytes := by
  funext x
  simp [overwrite]

theorem overwrite_overwrite (more : List UInt8) :
    overwrite (overwrite bytes ptr data) (ptr + data.length) more = overwrite bytes ptr (data ++ more) := by
  funext x
  simp only [overwrite, length_append]
  by_cases hlow : ptr ≤ x ∧ x < ptr + data.length
  · have hnot : ¬(ptr + data.length ≤ x ∧ x < ptr + data.length + more.length) := by omega
    have hall : ptr ≤ x ∧ x < ptr + (data.length + more.length) := by omega
    rw [if_neg hnot, if_pos hlow, if_pos hall, getD_append _ _ _ _ (by omega)]
  · rw [if_neg hlow]
    by_cases hhg : ptr + data.length ≤ x ∧ x < ptr + data.length + more.length
    · have hall : ptr ≤ x ∧ x < ptr + (data.length + more.length) := by omega
      rw [if_pos hhg, if_pos hall, getD_append_right _ _ _ _ (by omega)]
      congr 1
      omega
    · have hnot : ¬(ptr ≤ x ∧ x < ptr + (data.length + more.length)) := by omega
      rw [if_neg hhg, if_neg hnot]

theorem copyFromSlice_ok (mem : Mem) {count : Nat} (h : ptr + count ≤ 2 ^ 32) (hlen : data.length ≤ count) :
    ∃ mem', mem.copyFromSlice ptr count data = .ok mem' ∧ mem' = { mem with bytes := overwrite mem.bytes ptr data } :=
  ⟨_, if_pos ⟨h, hlen⟩, rfl⟩

end Mem

namespace Libc
open Lib Spec

variable {whence offset : Int}

def GuestFile.host : GuestFile → Option HostFile
  | file f | ipaBundleFile f | resourceFile f => some f
  | directory | socket => none

namespace GuestFile
variable {g : GuestFile} {f : HostFile}

section
variable (h : g.host = some f)
include h

theorem read_host (n : Nat) : ∃ g', g.read n = .ok (.ok (f.rest.take n, g')) ∧ g'.host = some (f.read n).2 := by
  cases g <;> cases h <;> exact ⟨_, rfl, rfl⟩

theorem seek_host (n : Nat) : ∃ g', g.seek n = .ok (.ok g') ∧ g'.host = some { f with position := n } := by
  cases g <;> cases h <;> exact ⟨_, rfl, rfl⟩

theorem isSeekable_host : g.isSeekable = true := by
  cases g <;> cases h <;> rfl

theorem streamPosition_host : g.streamPosition = .ok (.ok f.position) := by
  cases g <;> cases h <;> rfl

theorem streamLen_host : g.streamLen = .ok (.ok f.contents.length) := by
  cases g <;> cases h <;> rfl

end
end GuestFile

def HostFile.start (f : HostFile) (whence : Int) : Nat :=
  if whence = SEEK_SET then 0 else if whence = SEEK_CUR then f.position else f.contents.length

theorem startPosition_host {g} {f} (h : g.host = some f)
    (hw : whence ∈ [SEEK_SET, SEEK_CUR, SEEK_END]) : Env.startPosition g whence = .ok (.ok (f.start whence)) := by
  simp only [mem_cons, not_mem_nil, or_false] at hw
  rcases hw with rfl | rfl | rfl
  · rfl
  · simp [Env.startPosition, HostFile.start, GuestFile.streamPosition_host h, SEEK_CUR, SEEK_SET]
  · simp [Env.startPosition, HostFile.start, GuestFile.streamLen_host h, SEEK_CUR, SEEK_SET, SEEK_END]

variable (env : Env) (filePtr : Nat)

@[simp] theorem Env.setErrno_mem (val : Int) : (env.setErrno val).mem = env.mem := rfl

theorem SEEK_SET_mem : SEEK_SET ∈ [SEEK_SET, SEEK_CUR, SEEK_END] := mem_cons_self

theorem SEEK_CUR_mem : SEEK_CUR ∈ [SEEK_SET, SEEK_CUR, SEEK_END] := by simp

@[simp] theorem Env.setErrno_fileFd (val : Int) : (env.setErrno val).fileFd = env.fileFd := rfl

@[simp] theorem Env.setFileHostObj_fileFd (object : FILEHostObject) :
    (env.setFileHostObj filePtr object).fileFd = env.fileFd := rfl

/-! ### A stream that is open -/

/-- The stream has this host object and reads this file, and no other thread has locked it. -/
structure Open (filePtr : Nat) (env : Env) (object : FILEHostObject) (f : HostFile) : Prop where
  stream : env.fileStreams filePtr = some object
  free : (object.owningThread = none ∧ object.lockCount = 0) ∨ object.owningThread = some env.currentThread
  file : ∃ idx file, Env.fdToFileIdx (env.fileFd filePtr) = .ok (some idx) ∧ env.files[idx]? = some (some file) ∧
    file.file.host = some f

namespace Open
variable {filePtr : Nat} {env : Env} {object : FILEHostObject} {f : HostFile} {offset whence : Int}

section
variable (h : Open filePtr env object f)
include h

theorem setErrno (val : Int) : Open filePtr (env.setErrno val) object f := ⟨h.stream, h.free, h.file⟩

theorem setMem (mem : Mem) : Open filePtr { env with mem } object f := ⟨h.stream, h.free, h.file⟩

theorem setObject (pushbacks : List UInt8) :
    Open filePtr (env.setFileHostObj filePtr { object with pushbacks }) { object with pushbacks } f :=
  ⟨Function.update_self .., h.free, h.file⟩

theorem get : env.getFileHostObj filePtr = .ok (object, env) := by
  simp [Env.getFileHostObj, h.stream]

theorem check : env.checkFileObjectLock filePtr = .ok env := by
  simp [Env.checkFileObjectLock, h.get, h.free]

theorem fileForFd : ∃ idx file, env.fileForFd (env.fileFd filePtr) = .ok (some (idx, file)) ∧ file.file.host = some f ∧
      ∀ f' file', file'.file.host = some f' → Open filePtr (env.setFile idx file') object f' := by
  obtain ⟨idx, file, hidx, hfi, hho⟩ := h.file
  refine ⟨idx, file, by simp [Env.fileForFd, hidx, hfi], hho, fun f' file' hho' => ?_⟩
  have hlt : idx < env.files.length := (List.getElem?_eq_some_iff.mp hfi).1
  exact ⟨h.stream, h.free, idx, file', hidx, by simp [Env.setFile, hlt], hho'⟩

theorem read {buffer size : Nat} (hbf : 0 < buffer) (hsz : buffer + size ≤ 2 ^ 32)
    (hlen : (f.rest.take size).length < 2 ^ 31) : ∃ env',
      env.read (env.fileFd filePtr) buffer size = .ok (((f.rest.take size).length : Nat), env') ∧
      Open filePtr env' object (f.read size).2 ∧
      env'.mem = { env.mem with bytes := overwrite env.mem.bytes buffer (f.rest.take size) } := by
  obtain ⟨mem, hcp, hmem⟩ := copyFromSlice_ok env.mem hsz (length_take_le size f.rest)
  obtain ⟨idx, file, hfi, hho, hset⟩ := ((h.setErrno 0).setMem mem).fileForFd
  obtain ⟨g, hrd, hg⟩ := GuestFile.read_host hho size
  have hfd : (env.setErrno 0).fileForFd (env.fileFd filePtr) = .ok (some (idx, file)) := hfi
  refine ⟨_, ?_, hset (f.read size).2 ⟨g, file.needsFlush,
    if (f.rest.take size).length = 0 ∧ size ≠ 0 then true else file.reachedEof, file.flags⟩ hg, hmem⟩
  simp only [Env.read, hbf.ne', if_false, hfd, ok_bind, Nat.not_lt.mpr hsz, hrd, Env.setErrno_mem, hcp, ofMem,
    hlen, if_true]

theorem lseek (hw : whence ∈ [SEEK_SET, SEEK_CUR, SEEK_END])
    (hlow : 0 ≤ f.start whence + offset) (hhg : f.start whence + offset ≤ offMax) : ∃ env',
      env.lseek (env.fileFd filePtr) offset whence = .ok (f.start whence + offset, env') ∧
      Open filePtr env' object { f with position := (f.start whence + offset).toNat } ∧ env'.mem = env.mem ∧
      env'.fileFd = env.fileFd := by
  obtain ⟨idx, file, hfi, hho, hset⟩ := h.fileForFd
  obtain ⟨g, hsk, hg⟩ := GuestFile.seek_host hho (f.start whence + offset).toNat
  refine ⟨_, ?_, hset _ ⟨g, file.needsFlush, false, file.flags⟩ hg, rfl, rfl⟩
  simp [Env.lseek, hfi, GuestFile.isSeekable_host hho, startPosition_host hho hw, Int.not_lt.mpr hlow,
    Int.not_lt.mpr hhg, hsk]

theorem lseek_refused (hw : whence ∈ [SEEK_SET, SEEK_CUR, SEEK_END])
    (hout : ¬(0 ≤ f.start whence + offset ∧ f.start whence + offset ≤ offMax)) : ∃ env',
      env.lseek (env.fileFd filePtr) offset whence = .ok (-1, env') ∧ Open filePtr env' object f := by
  obtain ⟨idx, file, hfi, hho, -⟩ := h.fileForFd
  by_cases hlow : f.start whence + offset < 0
  · refine ⟨_, ?_, h.setErrno EINVAL⟩
    simp [Env.lseek, hfi, GuestFile.isSeekable_host hho, startPosition_host hho hw, hlow]
  · have hhg : (offMax : Int) < f.start whence + offset := by omega
    refine ⟨_, ?_, h.setErrno EOVERFLOW⟩
    simp [Env.lseek, hfi, GuestFile.isSeekable_host hho, startPosition_host hho hw, hlow, hhg]

end
end Open

def Env.pushbacks (env : Env) (filePtr : Nat) : List UInt8 := ((env.fileStreams filePtr).map (·.pushbacks)).getD []

def Env.hostFile : HostFile :=
  match env.fileForFd (env.fileFd filePtr) with
  | .ok (some (_, file)) => file.file.host.getD ⟨[], 0⟩
  | _ => ⟨[], 0⟩

/-- The condition on a call: a pointer is to memory that is there, what is read is counted in 31 bits, and no pushback
    is pending when `fread` or `fgets` reads. `fgets` reads a whole line or up to the end of the file, `ungetc` puts back a
    byte and not at the start of the file, and there is room for the byte that `fgetc` allocates. -/
def Fits (env : Env) : StreamCall → Prop
  | .fgetc => env.pushbacks filePtr = [] →
      ∃ buffer heap mem, env.mem.allocInHeap none 1 = .ok (buffer, heap, mem) ∧ 0 < buffer ∧ buffer < 2 ^ 32
  | .fread buffer itemSize nItems => buffer < 2 ^ 32 ∧ (itemSize * nItems = 0 ∨ env.pushbacks filePtr = [] ∧
      0 < buffer ∧ itemSize * nItems < 2 ^ 32 ∧ buffer + itemSize * nItems ≤ 2 ^ 32 ∧
      ((env.hostFile filePtr).rest.take (itemSize * nItems)).length < 2 ^ 31)
  | .fgets str size => env.pushbacks filePtr = [] ∧ 0 < str ∧ str + size ≤ 2 ^ 32 ∧ 2 ≤ size ∧
      (10 ∈ (env.hostFile filePtr).rest.take (size - 1) ∨ (env.hostFile filePtr).rest.length < size)
  | .ungetc c => 0 ≤ c ∧ c < 256 ∧ 0 < (env.hostFile filePtr).position
  | .fseek _ whence | .fseeko _ whence => whence ∈ [SEEK_SET, SEEK_CUR, SEEK_END]
  | .fsetpos pos => pos + 8 ≤ 2 ^ 32
  | .ftell => (env.hostFile filePtr).position < 2 ^ 31
  | .rewind | .ftello => True

inductive Answer where
  | bytes (delivered : List UInt8)
  | done (success : Bool)
  | position (position : Int)

def seekBase (s : Stream UInt8) (whence : Int) : Int :=
  if whence = SEEK_SET then 0 else if whence = SEEK_CUR then s.position else s.contents.length

/-- The call on the abstract stream. `fsetpos` seeks to the position in guest memory; `fgets` keeps one byte of its buffer
    for the terminator. -/
def specCall (s : Stream UInt8) : StreamCall → Answer × Stream UInt8
  | .fgetc => .map .bytes id (s.read 1)
  | .fread _ itemSize nItems => .map .bytes id (s.read (itemSize * nItems))
  | .fgets _ size => .map .bytes id (s.readLine (· == 10) (size - 1))
  | .ungetc c => if c = EOF then (.done false, s) else (.done true, s.unread (.ofNat (c % 256).toNat))
  | .fseek offset whence | .fseeko offset whence =>
    if whence ∈ [SEEK_SET, SEEK_CUR, SEEK_END] then .map .done id (s.seek offMax (seekBase s whence + offset)) else (.done false, s)
  | .rewind => .map .done id (s.seek offMax 0)
  | .fsetpos pos => .map .done id (s.seek offMax (Env.toI64 (readLe env.mem.bytes pos 8)))
  | .ftell | .ftello => (.position s.position, s)

/-- The value that a call returned and the memory that it left are those of the abstract answer. -/
def Answers : StreamCall → Int → Env → Answer → Prop
  | .fgetc, value, _, .bytes delivered => value = (delivered.head?.map fun b => (b.toNat : Int)).getD EOF
  | .fread buffer itemSize _, value, env, .bytes delivered =>
    value = (delivered.length / itemSize : Nat) ∧ Holds env.mem.bytes buffer delivered
  | .fgets str _, value, env, .bytes delivered =>
    if delivered = [] then value = 0 else value = str ∧ Holds env.mem.bytes str (delivered ++ [0])
  | .ungetc c, value, _, .done success => value = if success then c else EOF
  | .fseek .., value, _, .done success | .fseeko .., value, _, .done success
  | .fsetpos .., value, _, .done success => value = if success then 0 else -1
  | .rewind, _, _, .done _ => True
  | .ftell, value, _, .position position | .ftello, value, _, .position position => value = position
  | _, _, _, _ => False

theorem specCall_fseek {env : Env} {s} (hw : whence ∈ [SEEK_SET, SEEK_CUR, SEEK_END]) :
    specCall env s (.fseek offset whence) = .map .done id (s.seek offMax (seekBase s whence + offset)) := if_pos hw

theorem specCall_fseeko {env : Env} {s} (hw : whence ∈ [SEEK_SET, SEEK_CUR, SEEK_END]) :
    specCall env s (.fseeko offset whence) = .map .done id (s.seek offMax (seekBase s whence + offset)) := if_pos hw

/-- The stream has the contents and the pushbacks of the abstract one, and its file stands at the abstract position. -/
structure Represents (filePtr : Nat) (env : Env) (s : Stream UInt8) : Prop where
  opened : ∃ object f, Open filePtr env object f ∧ object.pushbacks = s.pushed.reverse ∧ f.contents = s.contents ∧
    f.position + s.pushed.length = s.next
  size : s.contents.length ≤ offMax
  inRange : s.next ≤ offMax

section
variable {filePtr : Nat} {env : Env} {s : Stream UInt8} {object : FILEHostObject} {f : HostFile}
variable {buffer itemSize nItems : Nat} {whence : Int}

section
variable (h : Open filePtr env object f)
include h

theorem Open.pushbacks_eq : env.pushbacks filePtr = object.pushbacks := by
  simp [Env.pushbacks, h.stream]

theorem Open.hostFile_eq : env.hostFile filePtr = f := by
  obtain ⟨idx, file, hfi, hho, -⟩ := h.fileForFd
  simp [Env.hostFile, hfi, hho]

omit h in
theorem Represents.opened_of_nil (h : Represents filePtr env s) (hno : env.pushbacks filePtr = []) :
    ∃ object f, Open filePtr env object f ∧ object.pushbacks = [] ∧ s = ⟨f.contents, f.position, []⟩ := by
  obtain ⟨object, f, hop, hps, hcnt, hpos⟩ := h.opened
  have hnil : s.pushed = [] := by
    rw [hop.pushbacks_eq, hps] at hno
    exact reverse_eq_nil_iff.mp hno
  obtain ⟨contents, next, pushed⟩ := s
  simp only at hnil hcnt hpos
  subst hnil hcnt
  exact ⟨object, f, hop, hps, by rw [← hpos]; rfl⟩

theorem Open.fread (hno : object.pushbacks = [])
    (hbf : 0 < buffer) (htt : itemSize * nItems < 2 ^ 32) (hend : buffer + itemSize * nItems ≤ 2 ^ 32)
    (hlen : (f.rest.take (itemSize * nItems)).length < 2 ^ 31) : ∃ env',
      env.fread buffer itemSize nItems filePtr = .ok ((f.rest.take (itemSize * nItems)).length / itemSize, env') ∧
      Open filePtr env' object (f.read (itemSize * nItems)).2 ∧
      env'.mem.bytes = overwrite env.mem.bytes buffer (f.rest.take (itemSize * nItems)) := by
  by_cases hie : itemSize = 0
  · subst hie
    refine ⟨env.setErrno 0, ?_, ?_, ?_⟩
    · simp [Env.fread, (h.setErrno 0).check]
    · simpa [HostFile.read] using h.setErrno 0
    · simp [Env.setErrno]
  · obtain ⟨env', hrd, hop, hmem⟩ := (h.setErrno 0).read hbf hend hlen
    refine ⟨env', ?_, hop, congrArg bytes hmem⟩
    simp only [Env.fread, (h.setErrno 0).check, (h.setErrno 0).get, ok_bind, hie, if_false, Nat.not_le.mpr htt, hno,
      if_true, Env.freadRest, hrd]
    rw [if_neg (by omega), Int.toNat_natCast, Nat.add_zero]

/-- Reading no items leaves the pushbacks as they are. -/
theorem Open.fread_none (hbf : buffer < 2 ^ 32)
    (htt : itemSize * nItems = 0) : ∃ env',
      env.fread buffer itemSize nItems filePtr = .ok (0, env') ∧ Open filePtr env' object f := by
  by_cases hie : itemSize = 0
  · refine ⟨_, ?_, h.setErrno 0⟩
    simp [Env.fread, (h.setErrno 0).check, hie]
  by_cases hno : object.pushbacks = []
  · by_cases hnl : buffer = 0
    · refine ⟨_, ?_, (h.setErrno 0).setErrno 0⟩
      simp [Env.fread, (h.setErrno 0).check, (h.setErrno 0).get, hie, htt, hno, Env.freadRest, Env.read, hnl]
    · obtain ⟨env', hrd, hop, -⟩ := h.fread hno (Nat.pos_of_ne_zero hnl)
        (show itemSize * nItems < 2 ^ 32 by omega) (by omega) (by simp [htt])
      refine ⟨env', ?_, ?_⟩
      · simpa [htt] using hrd
      · simpa [htt, HostFile.read] using hop
  · have hcp : env.mem.copyFromSlice buffer 0 [] = .ok env.mem := by
      rw [copyFromSlice, if_pos ⟨hbf.le, Nat.le_refl 0⟩, overwrite_nil]
    refine ⟨_, ?_, (h.setErrno 0).setObject object.pushbacks⟩
    simp [Env.fread, (h.setErrno 0).check, (h.setErrno 0).get, hie, htt, hno, hcp, ofMem]
    rfl

end

/-- The line that `fgets` reads: up to a newline, or to the end of the file. -/
def HostFile.line (f : HostFile) (size : Nat) : List UInt8 := Vec.upTo (· == 10) (f.rest.take (size - 1))

theorem HostFile.length_line_le (f : HostFile) (size : Nat) : (f.line size).length ≤ size - 1 :=
  (Vec.length_upTo_le _ _).trans (length_take_le _ _)

theorem HostFile.take_line (f : HostFile) (size : Nat) : f.rest.take (f.line size).length = f.line size := by
  have htk := Vec.take_upTo (· == 10) (f.rest.take (size - 1))
  rw [take_take] at htk
  have hmin := Nat.min_eq_left (f.length_line_le size)
  rw [← hmin]
  exact htk

theorem fgetsLoop_spec {remaining tmp : Nat} (h : Open filePtr env object f) (hno : object.pushbacks = [])
    (htmp : 0 < tmp) (hend : tmp + remaining ≤ 2 ^ 32)
    (hlin : 10 ∈ f.rest.take (remaining - 1) ∨ f.rest.length < remaining) : ∃ env',
      Env.fgetsLoop filePtr remaining env tmp = .ok (tmp + (f.line remaining).length, env') ∧
      Open filePtr env' object { f with position := f.position + (f.line remaining).length } ∧
      env'.mem.bytes = overwrite env.mem.bytes tmp (f.line remaining) := by
  induction remaining generalizing env f tmp with
  | zero =>
    -- No line fits into no bytes.
    simp at hlin
  | succ remaining ih =>
    have hlen : (f.rest.take (1 * 1)).length < 2 ^ 31 := by
      rw [length_take]
      omega
    obtain ⟨env₁, hfre, hop, hmem⟩ := h.fread hno htmp (by omega) (by omega) hlen
    cases hrs : f.rest with
    | nil =>
      refine ⟨env₁, ?_, ?_, ?_⟩
      · simp [Env.fgetsLoop, hfre, hrs, HostFile.line, Vec.upTo]
      · simpa [HostFile.line, HostFile.read, hrs, Vec.upTo] using hop
      · simpa [HostFile.line, hrs, Vec.upTo] using hmem
    | cons b rest =>
      have hpos : 0 < remaining := by
        rw [hrs] at hlin
        cases remaining with
        | zero => simp at hlin
        | succ n => omega
      have hrd₁ : f.read (1 * 1) = ([b], { f with position := f.position + 1 }) := by simp [HostFile.read, hrs]
      rw [hrd₁] at hop
      rw [hrs] at hfre hmem
      have hrs₁ : HostFile.rest { f with position := f.position + 1 } = rest := by
        show f.contents.drop (f.position + 1) = rest
        rw [← drop_drop, show f.contents.drop f.position = b :: rest from hrs]
        rfl
      have hbyt : env₁.memRead tmp 1 = .ok b.toNat := by
        have hb : env₁.mem.bytes tmp = b := by
          rw [hmem]
          exact holds_overwrite 0 b rfl
        simp [Env.memRead, readLe, hb]
        omega
      have hmr : ¬ 2 ^ 32 ≤ tmp + 1 := by omega
      have hline_cons : f.line (remaining + 1) = b :: if b == 10 then [] else
          HostFile.line { f with position := f.position + 1 } remaining := by
        obtain ⟨n, rfl⟩ : ∃ n, remaining = n + 1 := ⟨remaining - 1, by omega⟩
        simp [HostFile.line, hrs, hrs₁, Vec.upTo]
      by_cases hb : b = 10
      · refine ⟨env₁, ?_, ?_, ?_⟩
        · simp [Env.fgetsLoop, hfre, hbyt, hline_cons, hb]
          omega
        · simpa [hline_cons, hb] using hop
        · simpa [hline_cons, hb] using hmem
      · have hne : b.toNat ≠ 10 := fun heq => hb (UInt8.toNat_inj.mp heq)
        have hlin₁ : 10 ∈ (HostFile.rest { f with position := f.position + 1 }).take (remaining - 1) ∨
            (HostFile.rest { f with position := f.position + 1 }).length < remaining := by
          obtain ⟨n, rfl⟩ : ∃ n, remaining = n + 1 := ⟨remaining - 1, by omega⟩
          simpa [hrs, hrs₁, Ne.symm hb] using hlin
        obtain ⟨env', hloo, hop', hmem'⟩ := ih hop (Nat.succ_pos tmp) (by omega) hlin₁
        refine ⟨env', ?_, ?_, ?_⟩
        · simp only [Env.fgetsLoop, hfre, ok_bind, hbyt, hne, hmr, if_false, hloo, hline_cons, hb, beq_iff_eq, length_cons]
          simp [Nat.add_assoc, Nat.add_comm 1]
        · simpa [hline_cons, hb, Nat.add_assoc, Nat.add_comm 1] using hop'
        · rw [hmem', hmem, hline_cons, if_neg (by simpa using hb)]
          exact overwrite_overwrite _

theorem Stream.read_zero (s : Stream UInt8) : s.read 0 = ([], s) := by
  simp [Stream.read]

theorem Represents.of_read {env' : Env} {n : Nat} (h : Represents filePtr env ⟨f.contents, f.position, []⟩)
    (hop : Open filePtr env' object (f.read n).2) (hno : object.pushbacks = []) :
    Represents filePtr env' (Stream.read ⟨f.contents, f.position, []⟩ n).2 := by
  have hsz : f.contents.length ≤ offMax := h.size
  have hpos : f.position ≤ offMax := h.inRange
  refine ⟨⟨object, _, hop, by simpa [Stream.read] using hno, rfl, ?_⟩, hsz, ?_⟩
  · simp [Stream.read, Stream.ahead, HostFile.read, HostFile.rest]
  · simp only [Stream.read, Stream.ahead, nil_append, length_take, length_drop, length_nil]
    omega

section
variable (h : Represents filePtr env s)
include h

theorem Represents.fread (hft : Fits filePtr env (.fread buffer itemSize nItems)) : ∃ env',
      env.fread buffer itemSize nItems filePtr = .ok ((s.read (itemSize * nItems)).1.length / itemSize, env') ∧
      Holds env'.mem.bytes buffer (s.read (itemSize * nItems)).1 ∧
      Represents filePtr env' (s.read (itemSize * nItems)).2 := by
  obtain ⟨hlt, htt | ⟨hno, hbf, htt, hend, hlen⟩⟩ := hft
  · obtain ⟨object, f, hop, hob⟩ := h.opened
    obtain ⟨env', hrd, hop'⟩ := hop.fread_none hlt htt
    rw [htt, Stream.read_zero]
    refine ⟨env', by simpa using hrd, ?_, ⟨object, f, hop', hob⟩, h.size, h.inRange⟩
    intro i b hb
    simp at hb
  · obtain ⟨object, f, hop, hps, rfl⟩ := h.opened_of_nil hno
    rw [hop.hostFile_eq] at hlen
    obtain ⟨env', hrd, hop', hmem⟩ := hop.fread hps hbf htt hend hlen
    refine ⟨env', hrd, ?_, h.of_read hop' hps⟩
    rw [hmem]
    exact holds_overwrite

theorem Represents.fgets {str size : Nat} (hft : Fits filePtr env (.fgets str size)) :
    ∃ ptr env', env.fgets str size filePtr = .ok (ptr, env') ∧
      Answers (.fgets str size) ptr env' (.bytes (s.readLine (· == 10) (size - 1)).1) ∧
      Represents filePtr env' (s.readLine (· == 10) (size - 1)).2 := by
  obtain ⟨hno, hstr, hend, hsz, hlin⟩ := hft
  obtain ⟨object, f, hop, hps, rfl⟩ := h.opened_of_nil hno
  rw [hop.hostFile_eq] at hlin
  obtain ⟨env₁, hloo, hop₁, hmem⟩ := fgetsLoop_spec hop hps hstr hend hlin
  have hrd : Stream.readLine ⟨f.contents, f.position, []⟩ (· == 10) (size - 1) =
      Stream.read ⟨f.contents, f.position, []⟩ (f.line size).length := rfl
  have hdlv : (Stream.read ⟨f.contents, f.position, []⟩ (f.line size).length).1 = f.line size := f.take_line size
  have hop₁ : Open filePtr env₁ object (f.read (f.line size).length).2 := by
    rw [HostFile.read, f.take_line]
    exact hop₁
  rw [hrd, hdlv]
  by_cases hem : f.line size = []
  · refine ⟨0, env₁, ?_, by simp [Answers, hem], h.of_read hop₁ hps⟩
    simp [Env.fgets, hloo, hem]
  · have hlen : 0 < (f.line size).length := length_pos_iff.mpr hem
    have hle : (f.line size).length ≤ size - 1 := f.length_line_le size
    obtain ⟨mem, hcp, hset⟩ := copyFromSlice_ok env₁.mem (show str + (f.line size).length + 1 ≤ 2 ^ 32 by omega)
      (show ([0] : List UInt8).length ≤ 1 from Nat.le_refl 1)
    refine ⟨str, { env₁ with mem }, ?_, ?_, h.of_read (hop₁.setMem mem) hps⟩
    · simp only [Env.fgets, hloo, ok_bind, hcp, ofMem]
      rw [if_neg (by omega)]
    · simp only [Answers, hem, if_false, hset, hmem, overwrite_overwrite, true_and]
      exact holds_overwrite

theorem Represents.fgetc (hft : Fits filePtr env .fgetc) : ∃ value env',
    env.fgetc filePtr = .ok (value, env') ∧ Answers .fgetc value env' (.bytes (s.read 1).1) ∧
      (env.pushbacks filePtr ≠ [] ∧ env'.mem = env.mem ∨ env.pushbacks filePtr = [] ∧ ∃ buffer heap mem bytes,
        env.mem.allocInHeap none 1 = .ok (buffer, heap, mem) ∧ env'.mem = { mem with bytes }) ∧
      Represents filePtr env' (s.read 1).2 := by
  by_cases hno : env.pushbacks filePtr = []
  · obtain ⟨object, f, hop, hps, rfl⟩ := h.opened_of_nil hno
    obtain ⟨buffer, heap, mem, hal, hpos, hlt⟩ := hft hno
    have hlen : (f.rest.take 1).length < 2 ^ 31 := by
      rw [length_take]
      omega
    obtain ⟨env', hrd, hop', hmem⟩ := ((hop.setErrno 0).setMem mem).read hpos (by omega) hlen
    rw [Env.setErrno_fileFd] at hrd
    have hrep := h.of_read hop' hps
    cases hrs : f.rest with
    | nil =>
      refine ⟨EOF, env', ?_, ?_, .inr ⟨hno, buffer, heap, mem, _, hal, hmem⟩, hrep⟩
      · simp [Env.fgetc, (hop.setErrno 0).check, (hop.setErrno 0).get, hps, hal, ofMem, hrd, hrs]
      · simp [Answers, Stream.read, Stream.ahead, show f.contents.drop f.position = [] from hrs]
    | cons b rest =>
      have hbyt : env'.memRead buffer 1 = .ok b.toNat := by
        have hb : env'.mem.bytes buffer = b := by
          rw [hmem, hrs]
          exact holds_overwrite 0 b rfl
        simp [Env.memRead, readLe, hb]
        omega
      refine ⟨b.toNat, env', ?_, ?_, .inr ⟨hno, buffer, heap, mem, _, hal, hmem⟩, hrep⟩
      · simp [Env.fgetc, (hop.setErrno 0).check, (hop.setErrno 0).get, hps, hal, ofMem, hrd, hrs, hbyt]
      · simp [Answers, Stream.read, Stream.ahead, show f.contents.drop f.position = b :: rest from hrs]
  · obtain ⟨object, f, hop, hps, hcnt, hnx⟩ := h.opened
    have hpsh := hno
    rw [hop.pushbacks_eq, hps] at hpsh
    obtain ⟨contents, next, pushed⟩ := s
    cases pushed with
    | nil => exact absurd rfl hpsh
    | cons a pushed =>
      have hmax : next ≤ offMax := h.inRange
      have hsr : f.start SEEK_CUR = f.position := rfl
      simp only [length_cons] at hnx
      obtain ⟨env', hsk, hop', hmem, -⟩ := ((hop.setErrno 0).setObject pushed.reverse).lseek SEEK_CUR_mem
        (show (0 : Int) ≤ f.start SEEK_CUR + 1 by omega) (by omega)
      have hpos : ¬(f.start SEEK_CUR : Int) + 1 ≤ 0 := by omega
      refine ⟨a.toNat, env', ?_, by simp [Answers, Stream.read, Stream.ahead], .inl ⟨hno, hmem⟩,
        ⟨_, _, hop', ?_, hcnt, ?_⟩, h.size, ?_⟩
      · simp only [Env.setFileHostObj_fileFd, Env.setErrno_fileFd] at hsk
        simp [Env.fgetc, (hop.setErrno 0).check, (hop.setErrno 0).get, hps, hsk, hpos]
      · simp [Stream.read]
      · simp only [Stream.read, Stream.ahead, length_take, length_append, length_cons, drop_succ_cons, drop_zero]
        omega
      · simp only [Stream.read, Stream.ahead, length_take, length_append, length_cons]
        omega

/-! ### Putting back and positioning -/

theorem Represents.ungetc {c : Int} (hft : Fits filePtr env (.ungetc c)) : ∃ env',
    env.ungetc c filePtr = .ok (c, env') ∧ env'.mem = env.mem ∧ Represents filePtr env' (s.unread (.ofNat (c % 256).toNat)) := by
  obtain ⟨hlow, hhg, hpos⟩ := hft
  obtain ⟨object, f, hop, hps, hcnt, hnx⟩ := h.opened
  have hmax : s.next ≤ offMax := h.inRange
  have hsr : f.start SEEK_CUR = f.position := rfl
  rw [hop.hostFile_eq] at hpos
  obtain ⟨env₁, hsk₁, hop₁, hmem₁, hfd₁⟩ := hop.lseek SEEK_CUR_mem (show (0 : Int) ≤ f.start SEEK_CUR + 0 by omega) (by omega)
  have hsm : { f with position := ((f.start SEEK_CUR : Int) + 0).toNat } = f := by simp [hsr]
  rw [hsm] at hop₁
  obtain ⟨env₂, hsk₂, hop₂, hmem₂, -⟩ := hop₁.lseek SEEK_CUR_mem (show (0 : Int) ≤ f.start SEEK_CUR + -1 by omega) (by omega)
  rw [hfd₁] at hsk₂
  have h₁ : ¬(f.start SEEK_CUR : Int) + 0 ≤ 0 := by omega
  have h₂ : ¬(f.start SEEK_CUR : Int) + -1 < 0 := by omega
  have hop₃ := hop₂.setObject (object.pushbacks ++ [.ofNat c.toNat])
  refine ⟨_, ?_, ?_, ⟨_, _, hop₃, ?_, hcnt, ?_⟩, h.size, hmax⟩
  · have hc : c ≠ EOF := by
      rintro rfl
      exact absurd hlow (by decide)
    simp only [Env.ungetc, hc, if_false, hop.check, ok_bind, hsk₁, h₁, hsk₂, h₂, hop₂.get, hlow, hhg, and_self, if_true]
  · exact hmem₂.trans hmem₁
  · rw [Int.emod_eq_of_lt hlow hhg]
    simp [Stream.unread, hps]
  · simp only [Stream.unread, length_cons]
    omega

theorem Represents.setErrno (val : Int) : Represents filePtr (env.setErrno val) s := by
  obtain ⟨object, f, hop, hob⟩ := h.opened
  exact ⟨⟨object, f, hop.setErrno val, hob⟩, h.size, h.inRange⟩

theorem Represents.check : env.checkFileObjectLock filePtr = .ok env := by
  obtain ⟨object, f, hop, -⟩ := h.opened
  exact hop.check

theorem Represents.seekAndClear {offset target : Int}
    (hw : whence ∈ [SEEK_SET, SEEK_CUR, SEEK_END]) (htg : seekBase s whence + offset = target) : ∃ value env',
      env.seekAndClear filePtr offset whence = .ok (value, env') ∧
      (value = if (s.seek offMax target).1 then 0 else -1) ∧ Represents filePtr env' (s.seek offMax target).2 := by
  obtain ⟨object, f, hop, hps, hcnt, hnx⟩ := h.opened
  have hsr : (f.start whence : Int) + offset = target := by
    rw [← htg]
    simp only [mem_cons, not_mem_nil, or_false] at hw
    rcases hw with rfl | rfl | rfl
    · rfl
    · show (f.position : Int) + offset = s.position + offset
      rw [Stream.position]
      omega
    · show (f.contents.length : Int) + offset = s.contents.length + offset
      rw [hcnt]
  by_cases hrn : 0 ≤ target ∧ target ≤ offMax
  · obtain ⟨env₁, hsk, hop₁, -⟩ := hop.lseek hw (hsr ▸ hrn.1) (hsr ▸ hrn.2)
    rw [hsr] at hsk hop₁
    refine ⟨0, _, ?_, by simp [Stream.seek, hrn], ⟨_, _, hop₁.setObject [], ?_, ?_, ?_⟩, ?_, ?_⟩
    · have hne : target ≠ -1 := by omega
      simp [Env.seekAndClear, hsk, hne, Env.clearPushbacks, hop₁.get]
    all_goals simp only [Stream.seek, hrn, and_self, if_true]
    · rfl
    · exact hcnt
    · rfl
    · exact h.size
    · omega
  · obtain ⟨env₁, hsk, hop₁⟩ := hop.lseek_refused hw (hsr ▸ hrn)
    refine ⟨-1, env₁, by simp [Env.seekAndClear, hsk], by simp [Stream.seek, hrn], ?_⟩
    rw [Stream.seek, if_neg hrn]
    exact ⟨⟨object, f, hop₁, hps, hcnt, hnx⟩, h.size, h.inRange⟩

theorem Represents.fseeko (offset : Int)
    (hw : whence ∈ [SEEK_SET, SEEK_CUR, SEEK_END]) : ∃ value env', env.fseeko filePtr offset whence = .ok (value, env') ∧
      (value = if (s.seek offMax (seekBase s whence + offset)).1 then 0 else -1) ∧
      Represents filePtr env' (s.seek offMax (seekBase s whence + offset)).2 := by
  obtain ⟨value, env', hsk, hans⟩ := (h.setErrno 0).seekAndClear hw rfl
  refine ⟨value, env', ?_, hans⟩
  simp [Env.fseeko, (h.setErrno 0).check, hw, hsk]

theorem Represents.ftello : ∃ env', env.ftello filePtr = .ok (s.position, env') ∧ Represents filePtr env' s := by
  obtain ⟨object, f, hop, hps, hcnt, hnx⟩ := (h.setErrno 0).opened
  have hmax : s.next ≤ offMax := h.inRange
  have hsr : f.start SEEK_CUR = f.position := rfl
  obtain ⟨env', hsk, hop', -⟩ := hop.lseek SEEK_CUR_mem (show (0 : Int) ≤ f.start SEEK_CUR + 0 by omega) (by omega)
  have hpst : (f.start SEEK_CUR : Int) + 0 = s.position := by
    rw [Stream.position]
    omega
  refine ⟨env', ?_, ⟨object, _, hop', hps, hcnt, ?_⟩, h.size, h.inRange⟩
  · rw [hpst] at hsk
    simp only [Env.ftello, hop.check, ok_bind, hsk]
  · simpa [hsr] using hnx

end
end

/-- One call: it returns, it answers as the abstract stream does, and it leaves the stream in step with it. -/
theorem Represents.call {filePtr : Nat} (env : Env) (s : Stream UInt8) (c : StreamCall) (h : Represents filePtr env s)
    (hft : Fits filePtr env c) : ∃ value env', env.call filePtr c = .ok (value, env') ∧
      Answers c value env' (specCall env s c).1 ∧ Represents filePtr env' (specCall env s c).2 := by
  cases c with
  | fgetc =>
    obtain ⟨value, env', hget, hans, -, hrep⟩ := h.fgetc hft
    exact ⟨value, env', hget, hans, hrep⟩
  | fread buffer itemSize nItems =>
    obtain ⟨env', hrd, hhs, hrep⟩ := h.fread hft
    refine ⟨_, env', ?_, ⟨rfl, hhs⟩, hrep⟩
    simp only [Env.call, hrd, ok_bind]
    rfl
  | fgets str size =>
    obtain ⟨ptr, env', hgts, hans, hrep⟩ := h.fgets hft
    exact ⟨ptr, env', by simp [Env.call, hgts], hans, hrep⟩
  | ungetc c =>
    obtain ⟨env', hun, -, hrep⟩ := h.ungetc hft
    have hc : c ≠ EOF := by
      rintro rfl
      exact absurd hft.1 (by decide)
    exact ⟨c, env', hun, by simp [specCall, hc, Answers], by simpa [specCall, hc] using hrep⟩
  | fseek offset whence =>
    obtain ⟨value, env', hsk, hvl, hrep⟩ := h.fseeko offset hft
    rw [specCall_fseek hft]
    exact ⟨value, env', hsk, hvl, hrep⟩
  | fseeko offset whence =>
    obtain ⟨value, env', hsk, hvl, hrep⟩ := h.fseeko offset hft
    rw [specCall_fseeko hft]
    exact ⟨value, env', hsk, hvl, hrep⟩
  | rewind =>
    obtain ⟨value, env', hsk, -, hrep⟩ := (h.setErrno 0).fseeko 0 SEEK_SET_mem
    exact ⟨0, env', by simp [Env.call, Env.rewind, Env.fseek, hsk], trivial, hrep⟩
  | fsetpos pos =>
    have hend : pos + 8 ≤ 2 ^ 32 := hft
    have hrd : (env.setErrno 0).memRead pos 8 = .ok (readLe env.mem.bytes pos 8) := by
      rw [Env.memRead, if_pos hend, Env.setErrno_mem]
    have htg : seekBase s SEEK_SET + Env.toI64 (readLe env.mem.bytes pos 8) =
      Env.toI64 (readLe env.mem.bytes pos 8) := Int.zero_add _
    obtain ⟨value, env', hsk, hvl, hrep⟩ := (h.setErrno 0).seekAndClear SEEK_SET_mem htg
    refine ⟨value, env', by simp [Env.call, Env.fsetpos, (h.setErrno 0).check, hrd, hsk], ?_⟩
    rw [specCall]
    generalize Env.toI64 _ = target at hvl hrep
    exact ⟨hvl, hrep⟩
  | ftell =>
    obtain ⟨env', hte, hrep⟩ := h.ftello
    obtain ⟨object, f, hop, -, -, hnx⟩ := h.opened
    have hlt : f.position < 2 ^ 31 := by
      have hpos : (env.hostFile filePtr).position < 2 ^ 31 := hft
      rwa [hop.hostFile_eq] at hpos
    have hrn : -2 ^ 31 ≤ s.position ∧ s.position < 2 ^ 31 := by
      rw [Stream.position]
      omega
    exact ⟨s.position, env', by simp only [Env.call, Env.ftell, hte, ok_bind, hrn, and_self, if_true], rfl, hrep⟩
  | ftello =>
    obtain ⟨env', hte, hrep⟩ := h.ftello
    exact ⟨s.position, env', hte, rfl, hrep⟩

/-- A stream on a file of any contents, at any position and with any pushbacks, answers any calls that fit as the
    abstract stream does. -/
theorem stream_follows (env : Env) (s : Stream UInt8) (calls : List StreamCall)
    (h : Represents filePtr env s) (hfits : Admitted (Env.call filePtr) (Fits filePtr) env calls) :
    Follows (Env.call filePtr) specCall Answers env s calls :=
  follows_of_simulation (Represents filePtr) Represents.call h hfits

def opened (mem : Mem) (contents : List UInt8) : Env where
  currentThread := 0
  mem := mem
  errnos := fun _ => 0
  files := [some ⟨.file ⟨contents, 0⟩, false, false, 0⟩]
  fileStreams := fun filePtr => if filePtr = 16 then some ⟨[], 0, none⟩ else none
  fileFd := fun _ => 3

theorem represents_opened (mem : Mem) {contents} (h : contents.length ≤ offMax) :
    Represents 16 (opened mem contents) ⟨contents, 0, []⟩ :=
  ⟨⟨⟨[], 0, none⟩, ⟨contents, 0⟩, ⟨rfl, .inl ⟨rfl, rfl⟩, 0, _, rfl, rfl, rfl⟩, rfl, rfl, rfl⟩, h, Nat.zero_le _⟩

/-- A byte is put back and read again; then a line is read, and the file once more from its start. -/
theorem stream_follows_line : ∃ mem, new = .ok mem ∧ Represents 16 (opened mem [97, 98, 10]) ⟨[97, 98, 10], 0, []⟩ ∧
    Follows (Env.call 16) specCall Answers (opened mem [97, 98, 10]) ⟨[97, 98, 10], 0, []⟩
      [.fseek 1 SEEK_SET, .ungetc 120, .ftell, .fgetc, .fgets 64 8, .rewind, .fread 64 2 1] := by
  refine ⟨_, rfl, represents_opened _ (by decide), stream_follows 16 _ _ _ (represents_opened _ (by decide)) ?_⟩
  refine .cons SEEK_SET_mem rfl ?_
  refine .cons ⟨by decide, by decide, by decide⟩ rfl ?_
  refine .cons (show _ < 2 ^ 31 by decide) rfl ?_
  refine .cons (fun h => absurd h (by decide)) rfl ?_
  refine .cons ⟨rfl, by omega, by omega, by omega, .inl (by decide)⟩ rfl ?_
  refine .cons trivial rfl ?_
  exact .cons ⟨by decide, .inr ⟨rfl, by decide, by decide, by decide, by decide⟩⟩ rfl .nil

/-- After a pushback, `fread` delivers it and then the byte before those that follow. -/
theorem fread_repeats : ∃ mem, new = .ok mem ∧ Represents 16 (opened mem [97, 98, 99]) ⟨[97, 98, 99], 0, []⟩ ∧
    ¬Follows (Env.call 16) specCall Answers (opened mem [97, 98, 99]) ⟨[97, 98, 99], 0, []⟩
      [.fseek 1 SEEK_SET, .ungetc 120, .fread 64 1 3] := by
  refine ⟨_, rfl, represents_opened _ (by decide), fun h => ?_⟩
  obtain ⟨-, h⟩ := h.head rfl
  obtain ⟨-, h⟩ := h.head rfl
  obtain ⟨⟨-, hholds⟩, -⟩ := h.head rfl
  exact absurd (hholds 1 98 rfl) (by decide)

end Libc
end TouchHLE
