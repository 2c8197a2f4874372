import TouchHLE.Libc.Scanf
import TouchHLE.Theorems.Libc.Stdio

/-! A stream as a subject of `fscanf`: it delivers what is left of its file and notices the end, and what is put back is
    delivered again. Each character that comes from the file takes a byte of the heap, as does reading at the end. -/

namespace TouchHLE.Libc
open Lib Spec List

/-! ### The stream as a reader -/

/-- The heap has room for as many bytes, each one allocated by itself. -/
def Roomy : Nat → Mem → Prop
  | 0, _ => True
  | n + 1, mem => ∃ buffer heap mem', mem.allocInHeap none 1 = .ok (buffer, heap, mem') ∧ 0 < buffer ∧ buffer < 2 ^ 32 ∧
    ∀ bytes, Roomy n { mem' with bytes }

/-- The stream is about to deliver the rest of its contents, and reading beyond them has room in the heap. -/
structure StreamAt (filePtr : Nat) (contents : List UInt8) (k : Nat) (rest : List UInt8) (env : Env) : Prop where
  suffix : rest <:+ contents
  state : ∃ st, Represents filePtr env st ∧ st.contents = contents ∧ st.ahead = rest ∧
    st.next ≤ contents.length ∧ Roomy (k + (contents.length - st.next)) env.mem

section
variable {filePtr k : Nat} {contents rest : List UInt8} {env : Env}

theorem Roomy.mono {n : Nat} : ∀ {mem : Mem}, Roomy (n + 1) mem → Roomy n mem := by
  induction n with
  | zero =>
    intro mem _
    trivial
  | succ n ih =>
    intro mem ⟨buffer, heap, mem', hal, hpos, hlt, hmr⟩
    exact ⟨buffer, heap, mem', hal, hpos, hlt, fun bytes => ih (hmr bytes)⟩

theorem Roomy.mono_le {m n : Nat} {mem : Mem} (hle : m ≤ n) (h : Roomy n mem) : Roomy m mem := by
  induction hle with
  | refl => exact h
  | step _ ih => exact ih h.mono

theorem StreamAt.position (h : StreamAt filePtr contents k rest env) :
    (env.hostFile filePtr).position = contents.length - rest.length := by
  obtain ⟨st, hrep, rfl, hah, hnx, -⟩ := h.state
  obtain ⟨object, f, hop, -, -, hpos⟩ := hrep.opened
  have hln := congrArg List.length hah
  simp only [Stream.ahead, length_append, length_drop] at hln
  rw [hop.hostFile_eq]
  omega

theorem StreamAt.setErrno (h : StreamAt filePtr contents k rest env) (val : Int) :
    StreamAt filePtr contents k rest (env.setErrno val) := by
  obtain ⟨st, hrep, hst⟩ := h.state
  exact ⟨h.suffix, st, hrep.setErrno val, hst⟩

theorem Represents.getc {st} {n : Nat} (h : Represents filePtr env st)
    (hrm : st.pushed = [] → Roomy (n + 1) env.mem) (hrm' : st.pushed ≠ [] → Roomy n env.mem) : ∃ env',
      (Scanf.fileStream filePtr).getc 0 env = .ok (st.ahead.head?, env') ∧ Represents filePtr env' (st.read 1).2 ∧
        Roomy n env'.mem := by
  obtain ⟨object, f, hop, hps, -, -⟩ := h.opened
  have hnil : object.pushbacks = [] ↔ st.pushed = [] := by rw [hps, reverse_eq_nil_iff]
  have hft : Fits filePtr env .fgetc := by
    intro hno
    rw [hop.pushbacks_eq] at hno
    obtain ⟨buffer, heap, mem, hal, hpos, hlt, -⟩ := hrm (hnil.mp hno)
    exact ⟨buffer, heap, mem, hal, hpos, hlt⟩
  obtain ⟨value, env', hget, hans, hmem, hrep⟩ := h.fgetc hft
  refine ⟨env', ?_, hrep, ?_⟩
  · have hvl : value = (st.ahead.head?.map fun b => (b.toNat : Int)).getD EOF := by
      simpa [Answers, Stream.read, head?_take] using hans
    cases hhd : st.ahead.head? with
    | none => simp [Scanf.fileStream, hget, Stdlib.ofLibc, hvl, hhd]
    | some c =>
      have hlt : (c.toNat : Int) < 256 := by
        have := c.toNat_lt
        omega
      have hne : (c.toNat : Int) ≠ EOF := by
        unfold EOF
        omega
      simp [Scanf.fileStream, hget, Stdlib.ofLibc, hvl, hhd, hlt, hne]
  · rw [hop.pushbacks_eq] at hmem
    rcases hmem with ⟨hne, hmem⟩ | ⟨hem, buffer, heap, mem, bytes, hal, hmem⟩
    · rw [hmem]
      exact hrm' fun hst => hne (hnil.mpr hst)
    · obtain ⟨buffer', heap', mem', hal', -, -, hmr⟩ := hrm (hnil.mp hem)
      rw [hal] at hal'
      cases hal'
      rw [hmem]
      exact hmr bytes

theorem StreamAt.getc_cons {c} (h : StreamAt filePtr contents k (c :: rest) env) : ∃ env',
    (Scanf.fileStream filePtr).getc 0 env = .ok (some c, env') ∧ StreamAt filePtr contents k rest env' := by
  obtain ⟨st, hrep, rfl, hah, hnx, hrm⟩ := h.state
  have hln := congrArg List.length hah
  simp only [Stream.ahead, length_append, length_drop, length_cons] at hln
  have hnx' : (st.read 1).2.next = st.next + (1 - st.pushed.length) := by
    simp [Stream.read, hah]
  obtain ⟨env', hget, hrep', hrm'⟩ := hrep.getc (n := k + (st.contents.length - (st.read 1).2.next))
    (fun hnil => by
      rw [hnil, length_nil] at hln hnx'
      convert hrm using 1
      omega)
    (fun hne => by
      have := length_pos_iff.mpr hne
      convert hrm using 1
      omega)
  rw [hah] at hget
  refine ⟨env', hget, (suffix_cons c rest).trans h.suffix, (st.read 1).2, hrep', rfl, ?_, ?_, hrm'⟩
  · rw [Stream.ahead_read, hah]
    rfl
  · rw [hnx']
    omega

theorem StreamAt.getc_nil (h : StreamAt filePtr contents (k + 1) [] env) : ∃ env',
    (Scanf.fileStream filePtr).getc 0 env = .ok (none, env') ∧ StreamAt filePtr contents k [] env' := by
  obtain ⟨st, hrep, rfl, hah, hnx, hrm⟩ := h.state
  obtain ⟨hpsh, hdr⟩ := append_eq_nil_iff.mp hah
  have hend := drop_eq_nil_iff.mp hdr
  have hrd : (st.read 1).2 = st := by
    obtain ⟨contents, next, pushed⟩ := st
    subst hpsh
    simp [Stream.read, hah]
  obtain ⟨env', hget, hrep', hrm'⟩ := hrep.getc (n := k) (fun _ => by convert hrm using 1; omega)
    (fun hne => absurd hpsh hne)
  rw [hah] at hget
  rw [hrd] at hrep'
  refine ⟨env', hget, nil_suffix, st, hrep', rfl, hah, hnx, ?_⟩
  convert hrm' using 1
  omega

theorem StreamAt.ungetc {c} (h : StreamAt filePtr contents k rest env) (hsff : c :: rest <:+ contents) :
    ∃ env', (Scanf.fileStream filePtr).ungetc c env = .ok env' ∧ StreamAt filePtr contents k (c :: rest) env' := by
  have hpst := h.position
  obtain ⟨st, hrep, rfl, hah, hnx, hrm⟩ := h.state
  have hln := hsff.length_le
  have hlt := c.toNat_lt
  rw [length_cons] at hln
  have hft : Fits filePtr env (.ungetc c.toNat) := ⟨by omega, by omega, by omega⟩
  obtain ⟨env', hun, hmem, hrep'⟩ := hrep.ungetc hft
  have hbyt : .ofNat (((c.toNat : Nat) : Int) % 256).toNat = c := by
    rw [show (((c.toNat : Nat) : Int) % 256).toNat = c.toNat by omega, UInt8.ofNat_toNat]
  rw [hbyt] at hrep'
  refine ⟨env', ?_, hsff, st.unread c, hrep', rfl, ?_, hnx, ?_⟩
  · simp [Scanf.fileStream, hun, Stdlib.ofLibc]
  · simp [Stream.unread, Stream.ahead, ← hah]
  · rw [hmem]
    exact hrm

theorem fileStream_reads (filePtr : Nat) (contents : List UInt8) :
    (Scanf.fileStream filePtr).Reads none true (fun k _ rest env => StreamAt filePtr contents k rest env) where
  cons := fun h => h.getc_cons
  back := fun h h' => h'.ungetc h.suffix
  nil := by
    intro k i env h
    obtain ⟨env', hget, h'⟩ := h.getc_nil
    exact ⟨env', hget, h', by simp⟩
  mono := by
    intro k i rest env h
    obtain ⟨st, hrep, hcnt, hah, hnx, hrm⟩ := h.state
    refine ⟨h.suffix, st, hrep, hcnt, hah, hnx, .mono ?_⟩
    convert hrm using 1
    omega
  place := fun _ _ _ _ _ _ h => h
  stay := by simp

end
end TouchHLE.Libc
