import TouchHLE.Theorems.Libc.Descriptors
import TouchHLE.Theorems.Fs.Resolution

/-! What `open` does with each combination of flags. The flags are turned into options in one place, and the options are
    checked in three others: by an assertion of the filesystem, by its tree of nodes, and by the host. -/

namespace TouchHLE
open Lib Option Objc.Selectors
variable {op : Option HostOp}
namespace Fs
variable {self : Fs} {path : GuestPath} {options : GuestOpenOptions} {host : HostOp → Bool}

/-! ### What the tree grants -/

/-- A file that exists may be opened for what it is to be opened for. -/
structure Permits (options : GuestOpenOptions) (writeable : Bool) : Prop where
  write : writeable = true ∨ (options.write = false ∧ options.append = false)
  notNew : ¬(options.create = true ∧ options.exclusive = true)

/-- The tree of nodes lets the path be opened; the host may have to be asked. -/
inductive Grants (self : Fs) (path : GuestPath) (options : GuestOpenOptions) : Option HostOp → Prop where
  | file {parent : List Name} {name : Name} {hostPath : HostPath} {writeable : Bool}
      (hres : Resolves self path (parent ++ [name]))
      (hget : self.root.get (parent ++ [name]) = some (FsNode.file (.path hostPath) writeable))
      (hpermits : Permits options writeable) :
      Grants self path options (some (.openFile hostPath { options with create := false }))
  | readOnlyFile {parent : List Name} {name : Name} {location : FileLocation} (hres : Resolves self path (parent ++ [name]))
      (hlocation : ∀ hostPath, location ≠ .path hostPath)
      (hget : self.root.get (parent ++ [name]) = some (FsNode.file location false)) (hpermits : Permits options false) :
      Grants self path options none
  | directory {parent : List Name} {name : Name} {children : List (Name × FsNode)} {dir : Option HostPath}
      (hres : Resolves self path (parent ++ [name]))
      (hget : self.root.get (parent ++ [name]) = some (FsNode.directory children dir)) (hwrite : options.write = false)
      (hnotNew : ¬(options.create = true ∧ options.exclusive = true)) : Grants self path options none
  | new {parent : List Name} {name : Name} {hostPath : HostPath} (hnew : NewFile self path parent name hostPath)
      (hcreate : options.create = true) : Grants self path options (some (.openFile hostPath options))

section Existing
variable {parent : List Name} {name : Name} {node : FsNode}

theorem openWithOptions_existing (har : Asserted options) (hres : Resolves self path (parent ++ [name]))
    (hget : self.root.get (parent ++ [name]) = some node)
    (hntn : ¬(options.create = true ∧ options.exclusive = true)) :
    self.openWithOptions host path options = self.openExisting host options node := by
  obtain ⟨dir, children, hprn, hch⟩ := Tree.exists_parent hget
  have hfa : (options.create && options.exclusive) = false := by simpa using hntn
  rw [openWithOptions, har, if_neg Bool.false_ne_true, lookupParentNode_of_resolves hres, hprn]
  simp [hch, hfa]

end Existing

theorem openWithOptions_of_grants (har : Asserted options) (h : Grants self path options op) :
    ((∀ o ∈ op, host o = true) → ∃ r fs ops, self.openWithOptions host path options = .ok (.ok r, fs, ops)) ∧
      ∀ o ∈ op, host o = false → self.openWithOptions host path options = .error .hostOpen := by
  have hask : ∀ {o : HostOp} (r : Opened) (fs : Fs),
      self.openWithOptions host path options = handleOpenErr host o (.ok r) fs →
      ((∀ o' ∈ some o, host o' = true) → ∃ r fs ops, self.openWithOptions host path options = .ok (.ok r, fs, ops)) ∧
        ∀ o' ∈ some o, host o' = false → self.openWithOptions host path options = .error .hostOpen := by
    intro o r fs hon
    rw [hon]
    refine ⟨fun hho => ⟨r, fs, [o], if_pos (hho o rfl)⟩, ?_⟩
    rintro _ ⟨⟩ hfa
    exact if_neg (by simp [hfa])
  cases h with
  | file hres hget hpm =>
    rename_i parent name hostPath writeable
    have hwi : (!writeable && (options.append || options.write)) = false := by
      rcases hpm.write with h | ⟨h, h'⟩ <;> simp [*]
    refine hask (.file hostPath) self ?_
    rw [openWithOptions_existing har hres hget hpm.notNew, openExisting, hwi, if_neg Bool.false_ne_true]
  | readOnlyFile hres hlct hget hpm =>
    rename_i parent name location
    obtain ⟨hwi, happ⟩ := hpm.write.resolve_left Bool.false_ne_true
    rw [openWithOptions_existing har hres hget hpm.notNew]
    refine ⟨fun _ => ?_, by simp⟩
    cases location with
    | path hostPath => exact (hlct hostPath rfl).elim
    | ipaFileRef index => exact ⟨.ipaBundleFile index, self, [], by simp [openExisting, hwi, happ]⟩
    | resourceFilePath file => exact ⟨.resourceFile file, self, [], by simp [openExisting, hwi, happ]⟩
  | directory hres hget hwi hntn =>
    refine ⟨fun _ => ⟨.directory, self, [], ?_⟩, by simp⟩
    rw [openWithOptions_existing har hres hget hntn, openExisting, hwi]
    rfl
  | new hnew hct => exact hask _ _ (openWithOptions_created har hnew hct)

section
variable {setup : Setup} (hpl : Placed setup self)
include hpl

theorem grants_of_permits {parent} {name}
    {location} {writeable} (hres : Resolves self path (parent ++ [name]))
    (hget : self.root.get (parent ++ [name]) = some (FsNode.file location writeable)) (hpm : Permits options writeable) :
    ∃ op, Grants self path options op := by
  by_cases hpt : ∃ hostPath, location = .path hostPath
  · obtain ⟨hostPath, rfl⟩ := hpt
    exact ⟨_, .file hres hget hpm⟩
  · cases writeable with
    | true =>
      obtain ⟨dir, -, rest, -, -, hlct⟩ := (hpl.get hget).writeableFile
      exact (hpt ⟨_, hlct⟩).elim
    | false => exact ⟨_, .readOnlyFile hres (fun hostPath heq => hpt ⟨hostPath, heq⟩) hget hpm⟩

theorem openWithOptions_of_not_grants (habs : Absolute self)
    (har : Asserted options) (h : ∀ op, ¬Grants self path options op) :
    ∃ e, self.openWithOptions host path options = .ok (.error e, self, []) ∧ (Libc.errnoOf e).isSome := by
  obtain ⟨p, hres⟩ := habs.resolves path
  rcases List.eq_nil_or_concat p with rfl | ⟨parent, name, rfl⟩
  · refine ⟨.doesNotExist, ?_, rfl⟩
    rw [openWithOptions, har, if_neg Bool.false_ne_true, lookupParentNode, hres]
    rfl
  · rw [List.concat_eq_append] at hres
    rw [openWithOptions, har, if_neg Bool.false_ne_true, lookupParentNode_of_resolves hres]
    cases hprn : self.root.get parent with
    | none => exact ⟨.doesNotExist, rfl, rfl⟩
    | some parentNode =>
      cases parentNode with
      | leaf file => exact ⟨.nonexistentParentDir, rfl, rfl⟩
      | node dir children =>
        simp only [map_some, ok_bind]
        have hget := Tree.get_child hprn name
        cases hch : Tree.findChild name children with
        | none =>
          by_cases hct : options.create = true
          · cases dir with
            | none => exact ⟨.accessDenied, by simp [hct], rfl⟩
            | some dir => exact (h _ (.new ⟨hres, children, dir, hprn, hch, rfl⟩ hct)).elim
          · exact ⟨.doesNotExist, by simp [hct], rfl⟩
        | some node =>
          simp only
          rw [hch] at hget
          by_cases hnew : options.create = true ∧ options.exclusive = true
          · exact ⟨.alreadyExist, by simp [hnew.1, hnew.2], rfl⟩
          · have hfa : (options.create && options.exclusive) = false := by simpa using hnew
            rw [hfa, if_neg Bool.false_ne_true]
            cases node with
            | node dir children =>
              by_cases hwi : options.write = true
              · exact ⟨.isDirectory, by simp [openExisting, hwi], rfl⟩
              · exact (h _ (.directory hres hget (by simpa using hwi) hnew)).elim
            | leaf file =>
              obtain ⟨location, writeable⟩ := file
              by_cases hwi : writeable = true ∨ (options.write = false ∧ options.append = false)
              · exact (grants_of_permits hpl hres hget ⟨hwi, hnew⟩).elim fun op hop => (h op hop).elim
              · rw [not_or, not_and_or] at hwi
                refine ⟨.accessDenied, ?_, rfl⟩
                have hdnd : (!writeable && (options.append || options.write)) = true := by
                  rcases hwi.2 with hw | hw <;> simp_all
                exact if_pos hdnd

theorem grants_iff_exists {p} (hres : Resolves self path p)
    (hrd : options = ⟨true, false, false, false, false, false⟩) :
    (∃ op, Grants self path options op) ↔ p ≠ [] ∧ (self.root.get p).isSome := by
  subst hrd
  constructor
  · rintro ⟨op, hop⟩
    cases hop with
    | file hres' hget hpm | readOnlyFile hres' hlct hget hpm | directory hres' hget hwi hntn =>
      cases hres.unique hres'
      exact ⟨by simp, by rw [hget]; rfl⟩
    | new hnew hct => cases hct
  · rintro ⟨hne, hso⟩
    obtain ⟨node, hget⟩ := isSome_iff_exists.mp hso
    obtain ⟨parent, name, rfl⟩ : ∃ parent name, p = parent ++ [name] := by
      rcases List.eq_nil_or_concat p with hnil | ⟨parent, name, heq⟩
      · exact (hne hnil).elim
      · exact ⟨parent, name, by rw [heq, List.concat_eq_append]⟩
    cases node with
    | node dir children => exact ⟨_, .directory hres hget rfl (fun h => Bool.false_ne_true h.1)⟩
    | leaf file =>
      exact grants_of_permits hpl hres hget ⟨.inr ⟨rfl, rfl⟩, fun h => Bool.false_ne_true h.1⟩

end
end Fs

namespace Libc.Posix
variable {s t : Posix} {host : HostOp → Bool} {handle : HostFile} {flags : OpenFlag}

def HasRoom (s : Posix) : Prop := ∃ idx : Nat, (idx : Int) + NORMAL_FILENO_BASE < 2 ^ 31 ∧ Slots.get s.env.files idx = none

theorem findOrCreateFd_of_room (file : PosixFileHostObject) :
    (HasRoom s → ∃ (idx : Nat) (t : Posix), s.findOrCreateFd file = .ok (idx + NORMAL_FILENO_BASE, t)) ∧
      (¬HasRoom s → s.findOrCreateFd file = .error .fileIdx) := by
  have hpl := Slots.place_placed s.env.files file
  constructor
  · rintro ⟨idx, hidx, hfr⟩
    have hle : (Slots.place s.env.files file).1 ≤ idx := by
      by_contra hlt
      obtain ⟨b, hb⟩ := hpl.used idx (Nat.not_le.mp hlt)
      rw [hfr] at hb
      cases hb
    refine ⟨(Slots.place s.env.files file).1, s.setFiles (Slots.place s.env.files file).2, ?_⟩
    rw [findOrCreateFd, fileIdxToFd, if_pos (by omega)]
    rfl
  · intro hrm
    rw [findOrCreateFd, fileIdxToFd, if_neg fun hlt => hrm ⟨_, hlt, hpl.free⟩]
    rfl

section OpenFile
variable {p : GuestPath}

theorem ofFs_ok {α : Type} (a : α) : ofFs (.ok a) = .ok a := rfl

theorem openFile_of_grants (har : Fs.Asserted (openOptions flags))
    (h : Fs.Grants s.fs p (openOptions flags) op) (hho : ∀ o ∈ op, hostOpens host o = true) :
    (HasRoom s → ∃ (idx : Nat) (t : Posix), s.openFile host handle p flags = .ok (idx + NORMAL_FILENO_BASE, t)) ∧
      (¬HasRoom s → s.openFile host handle p flags = .error .fileIdx) := by
  obtain ⟨r, fs, ops, hoe⟩ := (Fs.openWithOptions_of_grants har h).1 hho
  have hrm : HasRoom { s with fs } ↔ HasRoom s := .rfl
  have hfi : s.openFile host handle p flags = findOrCreateFd { s with fs }
      { file := guestFileOf handle r, needsFlush := (openOptions flags).write, reachedEof := false, flags := 0 } := by
    rw [openFile, hoe, ofFs_ok, ok_bind]
  rw [hfi, ← hrm]
  exact findOrCreateFd_of_room _

theorem openFile_of_unwilling {op} (har : Fs.Asserted (openOptions flags))
    (h : Fs.Grants s.fs p (openOptions flags) (some op)) (hho : hostOpens host op = false) :
    s.openFile host handle p flags = .error (.fs .hostOpen) := by
  rw [openFile, (Fs.openWithOptions_of_grants har h).2 op rfl hho]
  rfl

theorem openFile_of_not_asserted (h : ¬Fs.Asserted (openOptions flags)) :
    s.openFile host handle p flags = .error (.fs .openOptions) := by
  rw [openFile, Fs.openWithOptions, if_pos (by simpa [Fs.Asserted] using h)]
  rfl

theorem errnoOf_ne_zero {e} {errno : Int} (h : errnoOf e = some errno) : errno ≠ 0 := by
  cases e <;> cases h <;> decide

theorem openFile_of_not_grants {setup} (hpl : Fs.Placed setup s.fs) (habs : Fs.Absolute s.fs)
    (har : Fs.Asserted (openOptions flags)) (h : ∀ op, ¬Fs.Grants s.fs p (openOptions flags) op) :
    ∃ errno, errno ≠ 0 ∧ s.openFile host handle p flags = .ok (-1, s.setErrno errno) := by
  obtain ⟨e, hoe, herr⟩ := Fs.openWithOptions_of_not_grants hpl habs har h
  obtain ⟨errno, herr⟩ := isSome_iff_exists.mp herr
  refine ⟨errno, errnoOf_ne_zero herr, ?_⟩
  rw [openFile, hoe, ofFs_ok, ok_bind]
  simp [herr]

end OpenFile

def errno (s : Posix) : Int := s.env.errnos s.env.currentThread

theorem errno_setErrno (s : Posix) (val : Int) : (s.setErrno val).errno = val := Function.update_self _ _ _

def pathAt (s : Posix) (path : Nat) : Option GuestPath :=
  match cstrAt s.env.mem.bytes path with
  | .ok bytes => bytes.toByteArray.utf8Decode?.map Array.toList
  | .error _ => none

/-- `open` returns a new descriptor, or -1 with an `errno`; a path is opened for reading exactly if it exists and can be
    read. -/
def Behaves (s : Posix) (host : HostOp → Bool) (handle : HostFile) (path : Nat) (flags : OpenFlag) : Prop :=
  ∃ fd t, s.open host handle path flags = .ok (fd, t) ∧
    (fd = -1 ∧ t.errno ≠ 0 ∨ s.fileAt fd = none ∧ (t.fileAt fd).isSome) ∧
    (flags = O_RDONLY → path ≠ 0 → ∀ p, s.pathAt path = some p →
      (fd ≠ -1 ↔ s.fs.exists p = .ok true ∧ ∃ access, s.fs.access p = .ok access ∧ access.read = true))

/-- The path is text, a file that is only read is neither created nor truncated, the host does what the tree of nodes
    grants, a descriptor is left for it, and it is not the root that is to be read. -/
structure Possible (s : Posix) (host : HostOp → Bool) (p : GuestPath) (flags : OpenFlag) : Prop where
  asserted : (openOptions flags).create = true ∨ (openOptions flags).truncate = true →
    (openOptions flags).write = true ∨ (openOptions flags).append = true
  granted : ∀ op, Fs.Grants s.fs p (openOptions flags) op → (∀ o ∈ op, hostOpens host o = true) ∧ HasRoom s
  notRoot : flags = O_RDONLY → ¬Fs.Resolves s.fs p []

section Open
variable {path : Nat} (hkn : flags &&& ~~~knownFlags = 0) (hmd : flags &&& O_ACCMODE ≠ O_ACCMODE)
include hkn

theorem open_null : s.open host handle 0 flags = .ok (-1, (s.setErrno 0).setErrno EFAULT) := by
  rw [Posix.open, openDirect, if_neg (not_not.mpr hkn), if_pos rfl]

include hmd

theorem open_notText (hpt : path ≠ 0) {bytes}
    (hby : cstrAt s.env.mem.bytes path = .ok bytes) (htx : s.pathAt path = none) :
    s.open host handle path flags = .ok (-1, s.setErrno 0) := by
  have hsti : cstrAt (s.setErrno 0).env.mem.bytes path = .ok bytes := hby
  have hno : bytes.toByteArray.utf8Decode? = none := by
    rw [pathAt, hby] at htx
    exact map_eq_none_iff.mp htx
  rw [Posix.open, openDirect, if_neg (not_not.mpr hkn), if_neg hpt, if_neg hmd, hsti]
  simp [hno]

section
variable (hpt : path ≠ 0) {p : GuestPath} (htx : s.pathAt path = some p)
include hpt htx

theorem open_text : s.open host handle path flags = (s.setErrno 0).openFile host handle p flags >>= fun opened =>
      if opened.1 ≠ -1 ∧ flags &&& O_SHLOCK ≠ 0 then .ok (opened.1, (opened.2.flock opened.1).2) else .ok opened := by
  rw [Posix.open, openDirect, if_neg (not_not.mpr hkn), if_neg hpt, if_neg hmd]
  rw [pathAt] at htx
  split at htx
  · rename_i bytes hby
    obtain ⟨chars, hcs, rfl⟩ := map_eq_some_iff.mp htx
    have hsti : cstrAt (s.setErrno 0).env.mem.bytes path = .ok bytes := hby
    rw [hsti]
    simp [hcs]
  · cases htx

theorem open_of_error {panic}
    (h : (s.setErrno 0).openFile host handle p flags = .error panic) : ¬Behaves s host handle path flags := by
  rintro ⟨fd, t, hon, -⟩
  rw [open_text hkn hmd hpt htx, h] at hon
  cases hon

theorem open_of_ok {idx : Nat} {t}
    (h : (s.setErrno 0).openFile host handle p flags = .ok (idx + NORMAL_FILENO_BASE, t)) :
    ∃ t, s.open host handle path flags = .ok ((idx : Int) + NORMAL_FILENO_BASE, t) := by
  rw [open_text hkn hmd hpt htx, h, ok_bind]
  split
  · exact ⟨_, rfl⟩
  · exact ⟨t, rfl⟩

end
end Open

theorem exists_and_access {p} {components} (hres : Fs.Resolves s.fs p components) :
    (s.fs.exists p = .ok true ∧ ∃ access, s.fs.access p = .ok access ∧ access.read = true) ↔
      (s.fs.root.get components).isSome := by
  rw [Fs.exists, Fs.access, Fs.lookupNode_of_resolves hres]
  cases s.fs.root.get components with
  | none => simp
  | some node => cases node <;> simp

theorem asserted_iff (options : GuestOpenOptions) : Fs.Asserted options ↔
    (options.create = true ∨ options.truncate = true → options.write = true ∨ options.append = true) := by
  obtain ⟨read, write, append, create, truncate, exclusive⟩ := options
  revert write append create truncate
  simp only [Fs.Asserted]
  decide

theorem openOptions_rdonly : openOptions O_RDONLY = ⟨true, false, false, false, false, false⟩ := by decide

section Path
variable {setup : Fs.Setup} (hpl : Fs.Placed setup s.fs) (hkn : flags &&& ~~~knownFlags = 0)
  (hmd : flags &&& O_ACCMODE ≠ O_ACCMODE) {path : Nat} (hpt : path ≠ 0) {p : GuestPath} (htx : s.pathAt path = some p)
  (har : Fs.Asserted (openOptions flags)) {components : List Name} (hres : Fs.Resolves s.fs p components)
include hpl hkn hmd hpt htx har hres

theorem behaves_of_grants (hop : Fs.Grants s.fs p (openOptions flags) op)
    (hho : ∀ o ∈ op, hostOpens host o = true) (hrm : HasRoom s) : Behaves s host handle path flags := by
  have hgrn : Fs.Grants (s.setErrno 0).fs p (openOptions flags) op := hop
  obtain ⟨idx, t, hfi⟩ := (openFile_of_grants har hgrn hho).1 hrm
  obtain ⟨t, hon⟩ := open_of_ok hkn hmd hpt htx hfi
  have hfd : (idx : Int) + NORMAL_FILENO_BASE ≠ -1 := by
    simp only [NORMAL_FILENO_BASE, STDERR_FILENO]
    omega
  refine ⟨_, t, hon, .inr ?_, fun hflg _ q hq => iff_of_true hfd ?_⟩
  · have hopn : Opening s (idx + NORMAL_FILENO_BASE) t := (open_opening s path).ok hon
    rcases hopn with ⟨heq, -⟩ | ⟨file, idx', heq, hslt⟩
    · exact (hfd heq).elim
    · rw [heq, fileAt_idx, fileAt_idx, hslt.free, hslt.new]
      exact ⟨rfl, rfl⟩
  · cases htx.symm.trans hq
    rw [exists_and_access hres]
    exact ((Fs.grants_iff_exists hpl hres (hflg ▸ openOptions_rdonly)).mp ⟨op, hop⟩).2

theorem behaves_of_not_grants (habs : Fs.Absolute s.fs) (h : ∀ op, ¬Fs.Grants s.fs p (openOptions flags) op) :
    Behaves s host handle path flags ↔ (flags = O_RDONLY → components ≠ []) := by
  obtain ⟨errno, herr, hfi⟩ := @openFile_of_not_grants (s.setErrno 0) host handle flags p setup hpl habs har h
  have hon : s.open host handle path flags = .ok (-1, (s.setErrno 0).setErrno errno) := by
    rw [open_text hkn hmd hpt htx, hfi, ok_bind, if_neg fun hne => hne.1 rfl]
  have hexs : flags = O_RDONLY → ¬(components ≠ [] ∧ (s.fs.root.get components).isSome) := by
    intro hflg hso
    obtain ⟨op, hop⟩ := (Fs.grants_iff_exists hpl hres (hflg ▸ openOptions_rdonly)).mpr hso
    exact h op hop
  constructor
  · rintro ⟨fd, t, hon', -, hrd⟩ hflg hrt
    cases hon.symm.trans hon'
    have hiff := hrd hflg hpt p htx
    rw [exists_and_access hres, hrt] at hiff
    exact hiff.mpr rfl rfl
  · intro hrt
    refine ⟨-1, _, hon, .inl ⟨rfl, by rwa [errno_setErrno]⟩, fun hflg _ q hq => ?_⟩
    cases htx.symm.trans hq
    rw [exists_and_access hres]
    exact iff_of_false (fun hne => hne rfl) fun hso => hexs hflg ⟨hrt hflg, hso⟩

theorem behaves_iff_possible (habs : Fs.Absolute s.fs) : Behaves s host handle path flags ↔ Possible s host p flags := by
  have hrt : Fs.Resolves s.fs p [] ↔ components = [] := ⟨fun h => hres.unique h, fun h => h ▸ hres⟩
  by_cases hgrn : ∃ op, Fs.Grants s.fs p (openOptions flags) op
  · obtain ⟨op, hop⟩ := hgrn
    constructor
    · intro hbhv
      refine ⟨(asserted_iff _).mp har, fun op' hop' => ?_, fun hflg hnil => ?_⟩
      · have hgrn : Fs.Grants (s.setErrno 0).fs p (openOptions flags) op' := hop'
        have hwll : ∀ o ∈ op', hostOpens host o = true := by
          intro o ho
          cases ho
          by_contra hunn
          exact open_of_error hkn hmd hpt htx
            (openFile_of_unwilling har hgrn (by simpa using hunn)) hbhv
        refine ⟨hwll, ?_⟩
        by_contra hrm
        exact open_of_error hkn hmd hpt htx ((openFile_of_grants har hgrn hwll).2 hrm) hbhv
      · exact ((Fs.grants_iff_exists hpl hres (hflg ▸ openOptions_rdonly)).mp ⟨op, hop⟩).1 (hrt.mp hnil)
    · intro hpob
      obtain ⟨hwll, hrm⟩ := hpob.granted op hop
      exact behaves_of_grants hpl hkn hmd hpt htx har hres hop hwll hrm
  · have hno := not_exists.mp hgrn
    rw [behaves_of_not_grants hpl hkn hmd hpt htx har hres habs hno]
    constructor
    · intro h
      exact ⟨(asserted_iff _).mp har, fun op hop => (hno op hop).elim, fun hflg hnil => h hflg (hrt.mp hnil)⟩
    · intro h hflg hnil
      exact h.notRoot hflg (hrt.mpr hnil)

end Path

/-- `open` does what it should exactly if the path is null or opening it is possible. -/
theorem behaves_iff_of_runs {setup : Fs.Setup} {fs₀ : Fs} {guard : Fs → Fs.Call × (HostOp → Bool) → Prop}
    (hnew : Fs.new setup = .ok fs₀) (hrun : Runs Fs.call guard fs₀ s.fs) {path : Nat}
    (hstring : ∃ bytes, cstrAt s.env.mem.bytes path = .ok bytes)
    (hknown : flags &&& ~~~knownFlags = 0) (hmode : flags &&& O_ACCMODE ≠ O_ACCMODE) :
    Behaves s host handle path flags ↔ path = 0 ∨ ∃ p, s.pathAt path = some p ∧ Possible s host p flags := by
  by_cases hpath : path = 0
  · subst hpath
    refine iff_of_true ⟨-1, _, open_null hknown, .inl ⟨rfl, ?_⟩, fun _ hne => (hne rfl).elim⟩ (.inl rfl)
    rw [errno_setErrno]
    decide
  · rw [or_iff_right hpath]
    cases htext : s.pathAt path with
    | none =>
      obtain ⟨bytes, hbytes⟩ := hstring
      refine iff_of_false ?_ ?_
      · rintro ⟨fd, t, hopen, hresult, -⟩
        rw [open_notText hknown hmode hpath hbytes htext] at hopen
        cases hopen
        rcases hresult with ⟨-, herrno⟩ | ⟨-, hsome⟩
        · exact herrno (errno_setErrno s 0)
        · cases hsome
      · rintro ⟨p, hp, -⟩
        cases hp
    | some p =>
      have hiff : Behaves s host handle path flags ↔ Possible s host p flags := by
        by_cases hasserted : Fs.Asserted (openOptions flags)
        · obtain ⟨components, hres⟩ := (Fs.absolute_of_runs hnew hrun).resolves p
          exact behaves_iff_possible (Fs.placed_of_runs hnew hrun) hknown hmode hpath htext hasserted hres
            (Fs.absolute_of_runs hnew hrun)
        · refine iff_of_false (open_of_error hknown hmode hpath htext (openFile_of_not_asserted hasserted)) fun h => ?_
          exact hasserted ((asserted_iff _).mpr h.asserted)
      rw [hiff]
      constructor
      · intro h
        exact ⟨p, rfl, h⟩
      · rintro ⟨q, hq, h⟩
        cases hq
        exact h

def samplePath (fs : Fs) (path : List UInt8) : Posix :=
  { sample with env := { sample.env with mem := { sample.env.mem with bytes := Mem.overwrite (fun _ => 0) 1 path } }, fs }

theorem samplePath_pathAt {fs : Fs} {bytes} (chars : Array Char)
    (hby : cstrAt (Mem.overwrite (fun _ => 0) 1 bytes) 1 = .ok bytes)
    (hcs : bytes.toByteArray.utf8Decode? = some chars) : (samplePath fs bytes).pathAt 1 = some chars.toList := by
  have hsti : cstrAt (samplePath fs bytes).env.mem.bytes 1 = .ok bytes := hby
  rw [pathAt, hsti]
  simp [hcs]

/-- `/a` does not exist, and opening it for reading says so. -/
theorem behaves_iff_of_runs_missing : ∃ fs₀, Fs.new (Fs.sampleSetup [['b']]) = .ok fs₀ ∧
    Behaves (samplePath fs₀ [47, 97]) (fun _ => true) ⟨[], 0⟩ 1 O_RDONLY := by
  obtain ⟨fs₀, hnew, hget⟩ : ∃ fs₀, Fs.new (Fs.sampleSetup [['b']]) = .ok fs₀ ∧ fs₀.root.get [['a']] = none := ⟨_, rfl, rfl⟩
  have hres : Fs.Resolves fs₀ ['/', 'a'] [['a']] := rfl
  have htext : (samplePath fs₀ [47, 97]).pathAt 1 = some ['/', 'a'] := samplePath_pathAt #['/', 'a'] rfl (by decide +kernel)
  have hrun : Runs Fs.call (fun _ _ => True) fs₀ (samplePath fs₀ [47, 97]).fs := .start
  have hnone : ∀ op, ¬Fs.Grants fs₀ ['/', 'a'] (openOptions O_RDONLY) op := by
    intro op hop
    have hsome := ((Fs.grants_iff_exists (Fs.new_placed hnew) hres openOptions_rdonly).mp ⟨op, hop⟩).2
    rw [hget] at hsome
    cases hsome
  refine ⟨fs₀, hnew, (behaves_iff_of_runs hnew hrun ⟨[47, 97], rfl⟩ (by decide) (by decide)).mpr ?_⟩
  refine .inr ⟨_, htext, by decide, fun op hop => (hnone op hop).elim, fun _ hroot => ?_⟩
  cases hres.unique hroot

/-- Creating a file that is only to be read stops the emulator, and the root cannot be opened although it exists. -/
theorem open_stops_and_misses_root : ∃ fs₀, Fs.new (Fs.sampleSetup [['b']]) = .ok fs₀ ∧
    (samplePath fs₀ [47, 97]).open (fun _ => true) ⟨[], 0⟩ 1 (O_RDONLY ||| O_CREAT) = .error (.fs .openOptions) ∧
      ¬Behaves (samplePath fs₀ [47, 97]) (fun _ => true) ⟨[], 0⟩ 1 (O_RDONLY ||| O_CREAT) ∧
      fs₀.exists ['/'] = .ok true ∧ ¬Behaves (samplePath fs₀ [47]) (fun _ => true) ⟨[], 0⟩ 1 O_RDONLY := by
  obtain ⟨fs₀, hnew⟩ : ∃ fs₀, Fs.new (Fs.sampleSetup [['b']]) = .ok fs₀ := ⟨_, rfl⟩
  have hplaced := Fs.new_placed hnew
  have hrun : Runs Fs.call (fun _ _ => True) fs₀ fs₀ := .start
  have htext : (samplePath fs₀ [47, 97]).pathAt 1 = some ['/', 'a'] := samplePath_pathAt #['/', 'a'] rfl (by decide +kernel)
  have hroot : (samplePath fs₀ [47]).pathAt 1 = some ['/'] := samplePath_pathAt #['/'] rfl (by decide +kernel)
  have hres : Fs.Resolves fs₀ ['/'] [] := rfl
  have hfile : ((samplePath fs₀ [47, 97]).setErrno 0).openFile (fun _ => true) ⟨[], 0⟩ ['/', 'a'] (O_RDONLY ||| O_CREAT) =
      .error (.fs .openOptions) := openFile_of_not_asserted (by rw [Fs.Asserted]; decide)
  refine ⟨fs₀, hnew, ?_, open_of_error (by decide) (by decide) (by decide) htext hfile, ?_, ?_⟩
  · rw [open_text (by decide) (by decide) (by decide) htext, hfile]
    rfl
  · rw [Fs.exists, Fs.lookupNode_of_resolves hres]
    rfl
  · intro hbehaves
    have hiff : Behaves (samplePath fs₀ [47]) (fun _ => true) ⟨[], 0⟩ 1 O_RDONLY ↔
        Possible (samplePath fs₀ [47]) (fun _ => true) ['/'] O_RDONLY :=
      behaves_iff_possible hplaced (by decide) (by decide) (by decide) hroot (by rw [Fs.Asserted]; decide) hres
        (Fs.absolute_of_runs hnew hrun)
    exact (hiff.mp hbehaves).notRoot rfl hres

end Libc.Posix
end TouchHLE
