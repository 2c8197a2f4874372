import TouchHLE.Lib.Run
import TouchHLE.Theorems.Fs.Places

/-! # Confinement of the guest filesystem

A new filesystem has its nodes where they belong, and so has every state that is reached from it. -/

namespace TouchHLE.Fs
open Lib List Tree FsNode

variable {setup : Setup} {fs : Fs} {writeable : Bool} {hostPath : HostPath} {name dir : Name} {p : List Name}
variable {l : FileNode ⊕ Option HostPath} {child : FsNode}

/-! ### The initial layout -/

/-- The labels of what `from_host_dir` makes for a directory at `hostPath`. -/
def HostLabel (writeable : Bool) (hostPath : HostPath) (p : List Name) (l : FileNode ⊕ Option HostPath) : Prop :=
  p ≠ [] ∧ l = .inl ⟨.path (hostPath ++ p), writeable⟩ ∨ l = .inr (if writeable then some (hostPath ++ p) else none)

theorem HostLabel.cons (h : HostLabel writeable (hostPath ++ [name]) p l) : HostLabel writeable hostPath (name :: p) l := by
  rw [HostLabel, append_assoc] at h
  exact h.imp (fun hl => ⟨cons_ne_nil name p, hl.2⟩) id

theorem fromEntries_labels (hostPath : HostPath) (writeable : Bool) (entries : HostDir) :
    ∀ name child, findChild name (fromEntries hostPath writeable entries) = some child →
      ∀ p l, child.labelAt p = some l → HostLabel writeable hostPath (name :: p) l := by
  induction entries generalizing hostPath with
  | nil =>
    intro name child hfn
    cases hfn
  | file n rest ih =>
    intro name child hfn
    rw [fromEntries, findChild_cons] at hfn
    split at hfn
    · rename_i hnm
      cases hfn
      rw [hnm]
      exact labels_leaf (.inl ⟨cons_ne_nil n [], rfl⟩)
    · exact ih hostPath name child hfn
  | dir n entries rest ihEntries ih =>
    intro name child hfn
    rw [fromEntries, findChild_cons] at hfn
    split at hfn
    · rename_i hnm
      cases hfn
      rw [hnm]
      refine labels_node (.inr rfl) ?_
      intro k child hfn p l hl
      exact (ihEntries (hostPath ++ [n]) k child hfn p l hl).cons
    · exact ih hostPath name child hfn

theorem fromHostDir_labels (hostPath : HostPath) (writeable : Bool) (entries : HostDir) :
    ∀ p l, (fromHostDir hostPath writeable entries).labelAt p = some l → HostLabel writeable hostPath p l := by
  refine labels_node (.inr ?_) (fromEntries_labels hostPath writeable entries)
  rw [append_nil]

def ArchiveLabel (l : FileNode ⊕ Option HostPath) : Prop := l = .inr none ∨ ∃ index, l = .inl ⟨.ipaFileRef index, false⟩

theorem fromArchive_labels (entries : Archive) : ∀ name child, findChild name (fromArchive entries) = some child →
      ∀ p l, child.labelAt p = some l → ArchiveLabel l := by
  induction entries with
  | nil =>
    intro name child hfn
    cases hfn
  | file n index rest ih =>
    intro name child hfn
    rw [fromArchive, findChild_cons] at hfn
    split at hfn
    · cases hfn
      exact labels_leaf (.inr ⟨index, rfl⟩)
    · exact ih name child hfn
  | dir n entries rest ihEntries ih =>
    intro name child hfn
    rw [fromArchive, findChild_cons] at hfn
    split at hfn
    · cases hfn
      exact labels_node (.inl rfl) ihEntries
    · exact ih name child hfn

/-- The places at and above the app's directory are not in the sandbox. -/
theorem not_inSandbox_of_length (h : p.length ≤ 4) : ¬InSandbox setup p := by
  rintro ⟨-, dir, -, rest, rfl⟩
  simp only [home, applications, length_append, length_cons, length_nil] at h
  omega

theorem bundle_placed (hout : setup.readOnlyMode = true ∨ setup.bundleDirName ∉ directories) :
    ∀ p l, setup.appBundle.intoFsNode.labelAt p = some l → Place setup (home ++ setup.bundleDirName :: p) l := by
  intro p l hl
  have hplc : ¬InSandbox setup (home ++ setup.bundleDirName :: p) := by
    rintro ⟨hmd, dir, hdir, rest, heq⟩
    rw [append_cancel_left_eq, List.cons.injEq] at heq
    rcases hout with hout | hout
    · rw [hmd] at hout
      cases hout
    · exact hout (heq.1 ▸ hdir)
  cases hbd : setup.appBundle with
  | hostDirectory path entries =>
    rw [hbd] at hl
    rcases fromHostDir_labels path false entries p l hl with ⟨-, rfl⟩ | rfl
    · exact .bundleFile hbd hplc
    · exact .readOnlyDir hplc
  | zip entries =>
    rw [hbd] at hl
    rcases labels_node (P := fun _ l => ArchiveLabel l) (.inl rfl) (fromArchive_labels entries) p l hl with
      rfl | ⟨index, rfl⟩
    · exact .readOnlyDir hplc
    · exact .archiveFile hplc

theorem sandbox_placed (hmd : setup.readOnlyMode = false) (hdir : dir ∈ directories) (entries : HostDir) :
    ∀ p l, (fromHostDir (setup.sandbox ++ [dir]) true entries).labelAt p = some l → Place setup (home ++ dir :: p) l := by
  intro p l hl
  have hlb := fromHostDir_labels _ true entries p l hl
  rw [HostLabel, append_assoc] at hlb
  rcases hlb with ⟨hp, rfl⟩ | rfl
  · exact .sandboxFile hmd hdir hp
  · exact .sandboxDir hmd hdir

theorem findChild_singleton {n} {inner}
    (h : findChild name [(n, inner)] = some child) : name = n ∧ child = inner := by
  rw [findChild_cons] at h
  split at h
  · cases h
    exact ⟨‹_›, rfl⟩
  · cases h

theorem appDir_placed (setup : Setup) : ∀ p l, (directory (appDirChildren setup) none).labelAt p = some l →
    Place setup (home ++ p) l := by
  refine labels_node (.readOnlyDir (not_inSandbox_of_length (by decide))) ?_
  intro k child hfn
  rw [appDirChildren] at hfn
  split at hfn
  · rename_i hmd
    obtain ⟨rfl, rfl⟩ := findChild_singleton hfn
    exact bundle_placed (.inl hmd)
  · rename_i hmd
    rcases findChild_foldl_insertChild hfn with ⟨hk, hfn⟩ | ⟨hk, rfl⟩
    · obtain ⟨rfl, rfl⟩ := findChild_singleton hfn
      exact bundle_placed (.inr hk)
    · exact sandbox_placed (by simpa using hmd) hk _

theorem findChild_libs {libs : List (Name × Name)} (h : findChild name (libs.map fun lib =>
      (lib.1, .file (.resourceFilePath ("touchHLE_dylibs/".toList ++ lib.2)) false)) = some child) :
    ∃ resource, child = .file (.resourceFilePath resource) false := by
  induction libs with
  | nil => cases h
  | cons lib libs ih =>
    rw [map_cons, findChild_cons] at h
    split at h
    · cases h
      exact ⟨_, rfl⟩
    · exact ih h

theorem usrLib_placed (setup : Setup) :
    ∀ p l, usrLib.labelAt p = some l → Place setup (["usr".toList, "lib".toList] ++ p) l := by
  refine labels_node (.readOnlyDir (not_inSandbox_of_length (by decide))) ?_
  intro k child hfn
  obtain ⟨resource, rfl⟩ := findChild_libs hfn
  exact labels_leaf (.resourceFile (not_inSandbox_of_length (by simp)))

theorem dirWith_placed {dir} (hdir : dir.length ≤ 4)
    (h : ∀ p l, child.labelAt p = some l → Place setup (dir ++ [name] ++ p) l) :
    ∀ p l, (dirWith name child).labelAt p = some l → Place setup (dir ++ p) l := by
  refine labels_node (.readOnlyDir (not_inSandbox_of_length (by simpa using hdir))) ?_
  intro k c hfn p l hl
  obtain ⟨rfl, rfl⟩ := findChild_singleton hfn
  have hplc := h p l hl
  rwa [append_assoc] at hplc

theorem new_placed (hnew : Fs.new setup = .ok fs) : Placed setup fs := by
  obtain ⟨found, -, hnew⟩ := bind_eq_ok.mp hnew
  split at hnew
  · cases hnew
    refine labels_node (.readOnlyDir (not_inSandbox_of_length (by simp))) ?_
    intro k child hfn
    rw [findChild_cons] at hfn
    split at hfn
    · rename_i hk
      cases hfn
      subst hk
      exact dirWith_placed (show ["usr".toList].length ≤ 4 by simp) (usrLib_placed setup)
    · obtain ⟨rfl, rfl⟩ := findChild_singleton hfn
      exact dirWith_placed (show ["var".toList].length ≤ 4 by simp)
        (dirWith_placed (by simp) (dirWith_placed (by simp) (appDir_placed setup)))
  · cases hnew

theorem placed_of_runs {fs₀ : Fs} {guard} (hnew : Fs.new setup = .ok fs₀)
    (hrun : Runs call guard fs₀ fs) : Placed setup fs :=
  hrun.invariant (new_placed hnew) fun _ _ _ _ h _ hcl => ((call_sound h _).ok hcl).1

def hostPathOf : FileNode ⊕ Option HostPath → Option HostPath
  | .inl ⟨.path hostPath, _⟩ => some hostPath
  | .inl _ => none
  | .inr writeable => writeable

theorem Place.hostPath_of_inSandbox (hmd : setup.readOnlyMode = false) (hdir : dir ∈ directories)
    {rest} (h : Place setup (home ++ dir :: rest) l) :
    hostPathOf l = some (setup.sandbox ++ dir :: rest) := by
  have hin : InSandbox setup (home ++ dir :: rest) := ⟨hmd, dir, hdir, rest, rfl⟩
  generalize hp : home ++ dir :: rest = p at h hin
  cases h with
  | sandboxFile _ _ _ | sandboxDir _ _ =>
    rw [append_cancel_left_eq] at hp
    rw [hp]
    rfl
  | bundleFile _ hout | archiveFile hout | resourceFile hout | readOnlyDir hout => exact absurd hin hout

/-- Below a writeable directory, everything has the path of the directory followed by its name. -/
theorem Placed.mirrors (h : Placed setup fs) {children}
    (hdir : fs.root.get p = some (directory children (some hostPath)))
    (hch : fs.root.get (p ++ [name]) = some child) : hostPathOf child.label = some (hostPath ++ [name]) := by
  obtain ⟨hmd, dir, hmem, rest, rfl, rfl⟩ := (h.get hdir).writeableDir
  have hplc := h.get hch
  rw [append_assoc] at hplc ⊢
  exact hplc.hostPath_of_inSandbox hmd hmem

def FileAt (fs : Fs) (p : List Name) (hostPath : HostPath) : Prop :=
  ∃ writeable, fs.root.get p = some (file (.path hostPath) writeable)

/-- The path lies in a bundle that is a directory of the host, and also in a directory of the sandbox. -/
def InBundleAndSandbox (setup : Setup) (hostPath : HostPath) : Prop :=
  (∃ bundle entries, setup.appBundle = .hostDirectory bundle entries ∧ bundle <+: hostPath) ∧
    ∃ dir ∈ directories, setup.sandbox ++ [dir] <+: hostPath

/-- A file of the host with a place in the guest tree is in the sandbox or in the bundle. -/
theorem Place.file_cases (h : Place setup p (.inl ⟨.path hostPath, writeable⟩)) :
    (∃ dir ∈ directories, ∃ rest, p = home ++ dir :: rest ∧ hostPath = setup.sandbox ++ dir :: rest) ∨
      ∃ bundle entries rest, setup.appBundle = .hostDirectory bundle entries ∧
        p = home ++ setup.bundleDirName :: rest ∧ hostPath = bundle ++ rest := by
  cases h with
  | sandboxFile _ hdir _ => exact .inl ⟨_, hdir, _, rfl, rfl⟩
  | bundleFile hbd _ => exact .inr ⟨_, _, _, hbd, rfl, rfl⟩

theorem Placed.distinct (h : Placed setup fs) {q} (hp : FileAt fs p hostPath)
    (hq : FileAt fs q hostPath) : p = q ∨ InBundleAndSandbox setup hostPath := by
  obtain ⟨_, hp⟩ := hp
  obtain ⟨_, hq⟩ := hq
  rcases (h.get hp).file_cases with ⟨dir, hdir, rest, rfl, rfl⟩ | ⟨bundle, entries, rest, hbd, rfl, rfl⟩
  · rcases (h.get hq).file_cases with ⟨dir', -, rest', rfl, heq⟩ | ⟨bundle, entries, rest', hbd, rfl, heq⟩
    · rw [append_cancel_left_eq] at heq
      rw [heq]
      exact .inl rfl
    · exact .inr ⟨⟨bundle, entries, hbd, rest', heq.symm⟩, dir, hdir, rest, by simp⟩
  · rcases (h.get hq).file_cases with ⟨dir', hdir', rest', rfl, heq⟩ | ⟨bundle', entries', rest', hbd', rfl, heq⟩
    · exact .inr ⟨⟨bundle, entries, hbd, rest, rfl⟩, dir', hdir', rest', by simp [heq]⟩
    · rw [hbd] at hbd'
      cases hbd'
      rw [append_cancel_left_eq] at heq
      rw [heq]
      exact .inl rfl

/-- In every state that is reached from a new filesystem by any calls, whatever the host answers: what is in a directory of
    the host has that directory's path followed by its name; whatever a call asks the host to open for writing, create,
    rename or remove lies below a directory of the sandbox; and two files share a path of the host only if it is in the
    bundle and in the sandbox. -/
theorem confinement_of_runs (setup : Setup) (fs₀ fs : Fs) (hnew : Fs.new setup = .ok fs₀)
    (hrun : Runs call (fun _ _ => True) fs₀ fs) :
    (∀ p name children hostPath child, fs.root.get p = some (directory children (some hostPath)) →
      fs.root.get (p ++ [name]) = some child → hostPathOf child.label = some (hostPath ++ [name])) ∧
    (∀ c a fs', fs.call c = .ok (a, fs') → ∀ op ∈ a.ops, ∀ path ∈ op.touches, Confined setup path) ∧
    ∀ p q hostPath, FileAt fs p hostPath → FileAt fs q hostPath → p = q ∨ InBundleAndSandbox setup hostPath := by
  have hplaced := placed_of_runs hnew hrun
  refine ⟨fun p name children hostPath child hdir hchild => hplaced.mirrors hdir hchild,
    fun c a fs' hcall => ((call_sound hplaced c).ok hcall).2, fun p q hostPath hp hq => hplaced.distinct hp hq⟩

def sampleSetup (bundle : HostPath) : Setup where
  appBundle := .hostDirectory bundle (.file ['x'] .nil)
  bundleDirName := ['A', '.', 'a', 'p', 'p']
  readOnlyMode := false
  sandbox := [['s']]
  entries := fun dir => if dir = "Documents".toList then .dir ['A', '.', 'a', 'p', 'p'] (.file ['x'] .nil) .nil else .nil

/-- A directory is entered, and from there a file of the sandbox is created and renamed. -/
theorem confinement_of_runs_rename : ∃ fs₀ fs, Fs.new (sampleSetup [['b']]) = .ok fs₀ ∧
    Runs call (fun _ _ => True) fs₀ fs ∧ FileAt fs (home ++ ["tmp".toList, ['n']]) [['s'], "tmp".toList, ['n']] ∧
    ∀ p q hostPath, FileAt fs p hostPath → FileAt fs q hostPath →
      p = q ∨ InBundleAndSandbox (sampleSetup [['b']]) hostPath := by
  obtain ⟨fs₀, fs, hnew, hrun, hfile⟩ : ∃ fs₀ fs, Fs.new (sampleSetup [['b']]) = .ok fs₀ ∧
      Runs call (fun _ _ => True) fs₀ fs ∧ FileAt fs (home ++ ["tmp".toList, ['n']]) [['s'], "tmp".toList, ['n']] :=
    ⟨_, _, rfl, .exec [(.createDir (spell (home ++ ["tmp".toList, ['d']])), fun _ => true),
      (.changeWorkingDirectory (spell (home ++ ["tmp".toList, ['d']])), fun _ => true),
      (.write ['.', '.', '/', 'm'], fun _ => true), (.rename ['.', '.', '/', '/', 'm'] ['.', '.', '/', 'n'], fun _ => true)]
      .start rfl, _, rfl⟩
  exact ⟨fs₀, fs, hnew, hrun, hfile, (confinement_of_runs (sampleSetup [['b']]) fs₀ fs hnew hrun).2.2⟩

/-- A bundle that lies in the sandbox: each of its files has two nodes. -/
theorem bundle_in_sandbox : ∃ fs p q hostPath,
    Fs.new (sampleSetup [['s'], "Documents".toList, ['A', '.', 'a', 'p', 'p']]) = .ok fs ∧ p ≠ q ∧
      FileAt fs p hostPath ∧ FileAt fs q hostPath := by
  refine ⟨_, home ++ [['A', '.', 'a', 'p', 'p'], ['x']],
    home ++ ["Documents".toList, ['A', '.', 'a', 'p', 'p'], ['x']], _, rfl, by decide, ⟨_, rfl⟩, _, rfl⟩

end TouchHLE.Fs
