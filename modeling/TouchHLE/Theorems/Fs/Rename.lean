import TouchHLE.Theorems.Fs.Effects

/-! # Renaming

`rename` creates its target if there is none, asks the host to rename the file, and prunes the source. The host may refuse
after the target has been created, and both paths may lead to the same file. -/

namespace TouchHLE.Fs
open Lib Function

variable {self fs : Fs} {host : HostOp → Bool} {source target : GuestPath} {ops : List HostOp}
variable {node : FsNode} {f : FileNode} {parent p q : List Name} {name : Name} {path : GuestPath}
variable {hostPath fromHostPath s t toHostPath : HostPath} {files files' : HostFiles}

abbrev HostFiles := HostPath → Option (List UInt8)

inductive HostStep (files : HostFiles) : HostOp → HostFiles → Prop where
  | openFile (path : HostPath) (options : GuestOpenOptions) : HostStep files (.openFile path options)
      (if options.truncate = true ∨ files path = none then update files path (some []) else files)
  | writeAll (path : HostPath) (data : List UInt8) : HostStep files (.writeAll path) (update files path (some data))
  | rename (source target : HostPath) : HostStep files (.rename source target)
      (update (update files source none) target (files source))
  | removeFile (path : HostPath) : HostStep files (.removeFile path) (update files path none)
  | removeDir (path : HostPath) : HostStep files (.removeDir path) files
  | createDir (path : HostPath) : HostStep files (.createDir path) files

inductive HostSteps : HostFiles → List HostOp → HostFiles → Prop where
  | nil {files : HostFiles} : HostSteps files [] files
  | cons {files files₁ files' : HostFiles} {op : HostOp} {ops : List HostOp} : HostStep files op files₁ →
      HostSteps files₁ ops files' → HostSteps files (op :: ops) files'

/-! ### What renaming does -/

theorem eq_leaf_of_label (h : node.label = .inl f) : node = .leaf f := by
  cases node with
  | leaf g =>
    cases h
    rfl
  | node b children => cases h

theorem deletes_source {children} {dir}
    (hp : parent ++ [name] = p) (hlb : self.root.labelAt p = some (.inl f))
    (hget : self.root.get parent = some (FsNode.directory children dir)) (hch : Tree.findChild name children = some node) :
    Deletes self (self.removeChild parent name) p := by
  subst hp
  have hnod : node = .leaf f := by
    rw [Tree.labelAt, Tree.get_child hget, hch] at hlb
    exact eq_leaf_of_label (Option.some_inj.mp hlb)
  exact deletes_removeChild hget hch (hnod ▸ labelAt_file _ _)

def FileAtPath (self : Fs) (path : GuestPath) (p : List Name) (hostPath : HostPath) : Prop :=
  Resolves self path p ∧ self.root.get p = some (FsNode.file (.path hostPath) true)

theorem FileAtPath.label (h : FileAtPath self path p hostPath) :
    self.root.labelAt p = some (.inl ⟨.path hostPath, true⟩) := by
  rw [Tree.labelAt, h.2]
  rfl

structure Prunes (before after : Fs) (p : List Name) : Prop where
  deletes : Deletes before after p
  removes : ∃ parent name children dir, before.root.get parent = some (FsNode.directory children dir) ∧
    after = before.removeChild parent name

/-- The last part of renaming: the host is asked if the target is a file that can be written to. -/
inductive RenameToCases (self : Fs) (host : HostOp → Bool) (fromHostPath : HostPath) (target : GuestPath) (p : List Name)
    (ops : List HostOp) : Outcome Unit → Prop where
  | refused (e : FsError) (absent : ∀ q toHostPath, ¬FileAtPath self target q toHostPath) :
      RenameToCases self host fromHostPath target p ops (.error e, self, ops)
  | failed {q : List Name} {toHostPath : HostPath} (file : FileAtPath self target q toHostPath)
      (denied : host (.rename fromHostPath toHostPath) = false) :
      RenameToCases self host fromHostPath target p ops (.error .ioError, self, ops ++ [.rename fromHostPath toHostPath])
  | renamed {q : List Name} {toHostPath : HostPath} {fs : Fs} (file : FileAtPath self target q toHostPath)
      (granted : host (.rename fromHostPath toHostPath) = true) (prunes : Prunes self fs p) :
      RenameToCases self host fromHostPath target p ops (.ok (), fs, ops ++ [.rename fromHostPath toHostPath])

theorem renameTo_spec (fromHostPath : HostPath) (hsc : Resolves self source p)
    (hlb : self.root.labelAt p = some (.inl f)) :
    Ensures (self.renameTo host fromHostPath source target ops) (RenameToCases self host fromHostPath target p ops) := by
  refine (lookupNode_spec self target).bind ?_
  rintro found ⟨q, hq, hget⟩
  have htg : ∀ q' toHostPath, FileAtPath self target q' toHostPath → found = some (.file (.path toHostPath) true) := by
    rintro q' toHostPath ⟨hq', hget'⟩
    rw [← hget, hq.unique hq', hget']
  rcases found with _ | ⟨⟨location, writeable⟩ | ⟨dir, children⟩⟩
  · trivial
  · cases location with
    | ipaFileRef index | resourceFilePath name =>
      exact .refused _ fun q' toHostPath hto => nomatch htg q' toHostPath hto
    | path toHostPath =>
      refine .ite (fun _ => trivial) fun hwri => ?_
      obtain rfl : writeable = true := by simpa using hwri
      refine .ite (fun hrnm => (lookupParentNode_spec self source).bind ?_) fun hrfs =>
        .failed ⟨hq, hget⟩ (Bool.eq_false_iff.mpr hrfs)
      rintro (_ | ⟨parent, node, name⟩) hfd
      · trivial
      obtain ⟨hres, hdir⟩ := hfd _ _ _ rfl
      rcases node with f | ⟨dir, children⟩
      · trivial
      dsimp only
      cases hch : Tree.findChild name children with
      | none => trivial
      | some node =>
        exact .renamed ⟨hq, hget⟩ hrnm
          ⟨deletes_source (hres.unique hsc) hlb hdir hch, _, _, _, _, hdir, rfl⟩
  · exact .refused _ fun q' toHostPath hto => nomatch htg q' toHostPath hto

theorem Adds.resolves {l} (h : Adds self fs q l) :
    Resolves fs path p ↔ Resolves self path p := by
  rw [Resolves, Resolves, h.directory]

theorem get_of_label (h : self.root.labelAt p = some (.inl f)) : self.root.get p = some (.leaf f) := by
  obtain ⟨node, hget, hlb⟩ := Option.map_eq_some_iff.mp h
  rw [hget, eq_leaf_of_label hlb]

theorem FileAtPath.unique {hostPath'}
    (h : FileAtPath self path p hostPath) (h' : FileAtPath self path q hostPath') : p = q ∧ hostPath = hostPath' := by
  obtain rfl := h.1.unique h'.1
  have heq := h.2.symm.trans h'.2
  cases heq
  exact ⟨rfl, rfl⟩

theorem NewFile.adds (h : NewFile self path parent name hostPath) :
    Adds self (self.insert parent name (.file (.path hostPath) true)) (parent ++ [name])
      (.inl ⟨.path hostPath, true⟩) := by
  obtain ⟨-, children, dir, hget, hno, -⟩ := h
  exact adds_insert hget hno (labelAt_file _ _)

/-- What renaming does: nothing; it prunes the source; or it creates the target, and prunes the source if the host has
    renamed the file. -/
inductive RenameCases (self : Fs) (host : HostOp → Bool) (source target : GuestPath) : Outcome Unit → Prop where
  | refused (e : FsError) : RenameCases self host source target (.error e, self, [])
  | failed {p q : List Name} {fromHostPath toHostPath : HostPath} (file : FileAtPath self source p fromHostPath)
      (there : FileAtPath self target q toHostPath) :
      RenameCases self host source target (.error .ioError, self, [.rename fromHostPath toHostPath])
  | renamed {p q : List Name} {fromHostPath toHostPath : HostPath} {fs : Fs} (file : FileAtPath self source p fromHostPath)
      (there : FileAtPath self target q toHostPath) (granted : host (.rename fromHostPath toHostPath) = true)
      (prunes : Prunes self fs p) : RenameCases self host source target (.ok (), fs, [.rename fromHostPath toHostPath])
  | created {p parent : List Name} {name : Name} {fromHostPath toHostPath : HostPath} {out : Outcome Unit}
      (file : FileAtPath self source p fromHostPath) (new : NewFile self target parent name toHostPath)
      (opened : host (.openFile toHostPath writeOptions) = true)
      (ends : (∃ e, out = (.error e, self.insert parent name (.file (.path toHostPath) true),
            [.openFile toHostPath writeOptions, .rename fromHostPath toHostPath]) ∧
          host (.rename fromHostPath toHostPath) = false) ∨
        ∃ fs, out = (.ok (), fs, [.openFile toHostPath writeOptions, .rename fromHostPath toHostPath]) ∧
          Prunes (self.insert parent name (.file (.path toHostPath) true)) fs p) :
      RenameCases self host source target out

theorem NewFile.fileAtPath (h : NewFile self path parent name hostPath) :
    FileAtPath (self.insert parent name (.file (.path hostPath) true)) path (parent ++ [name]) hostPath :=
  ⟨h.adds.resolves.mpr h.resolves, get_of_label (h.adds.labels _ |>.trans (if_pos rfl))⟩

/-- A new file does not replace the source. -/
theorem NewFile.keeps
    (h : NewFile self target parent name hostPath) (hsc : FileAtPath self source p fromHostPath) :
    p ≠ parent ++ [name] ∧ FileAtPath (self.insert parent name (.file (.path hostPath) true)) source p fromHostPath := by
  have hne : p ≠ parent ++ [name] := by
    rintro rfl
    have hlb := h.adds.new.symm.trans hsc.label
    cases hlb
  exact ⟨hne, h.adds.resolves.mpr hsc.1, get_of_label (h.adds.labels p |>.trans ((if_neg hne).trans hsc.label))⟩

theorem rename_spec (self : Fs) (host : HostOp → Bool) (source target : GuestPath) :
    Ensures (self.rename host source target) (RenameCases self host source target) := by
  refine (lookupNode_spec self source).bind ?_
  rintro found ⟨p, hp, hget⟩
  rcases found with _ | ⟨⟨location, writeable⟩ | ⟨dir, children⟩⟩
  · exact .refused _
  · cases location with
    | ipaFileRef index | resourceFilePath name => exact .refused _
    | path fromHostPath =>
      refine .ite (fun _ => trivial) fun hwri => (lookupNode_spec self target).bind ?_
      obtain rfl : writeable = true := by simpa using hwri
      have hsc : FileAtPath self source p fromHostPath := ⟨hp, hget⟩
      rintro (_ | node) ⟨q, hq, hthr⟩
      · refine (openWithOptions_spec self host target writeOptions).bind fun out hop => ?_
        cases hop with
        | refused e => exact .refused e
        | existing _ hq' hnod _ =>
          rw [hq'.unique hq, hthr] at hnod
          cases hnod
        | created hnew _ hho =>
          -- The target is new, and renaming goes on with it.
          have hsc₁ := (hnew.keeps hsc).2
          refine (renameTo_spec fromHostPath hsc₁.1 hsc₁.label).imp fun out hout => ?_
          cases hout with
          | refused e hab => exact absurd hnew.fileAtPath (hab _ _)
          | failed hto hdnd =>
            obtain ⟨-, rfl⟩ := hto.unique hnew.fileAtPath
            exact .created hsc hnew hho (.inl ⟨_, rfl, hdnd⟩)
          | renamed hto _ hpu =>
            obtain ⟨-, rfl⟩ := hto.unique hnew.fileAtPath
            exact .created hsc hnew hho (.inr ⟨_, rfl, hpu⟩)
      · refine (renameTo_spec fromHostPath hp hsc.label).imp fun out hout => ?_
        cases hout with
        | refused e => exact .refused e
        | failed hto => exact .failed hsc hto
        | renamed hto hgra hpu => exact .renamed hsc hto hgra hpu
  · trivial

/-! ### When renaming does what it should -/

/-- What renaming is to do, with the files of the host before and after: an error leaves the tree as it is. Otherwise the target
    is a file with the contents of the source, the source is gone, and other places are as they were; if both paths lead to
    the same place, nothing changes. -/
def RenameEffect (self fs : Fs) (files files' : HostFiles) (source target : GuestPath) : Except FsError Unit → Prop
  | .error _ => fs.root.labelAt = self.root.labelAt
  | .ok _ => ∃ p q fromHostPath, FileAtPath self source p fromHostPath ∧ Resolves self target q ∧
      if p = q then fs.root.labelAt = self.root.labelAt ∧ files' = files
      else (∃ toHostPath writeable, fs.root.labelAt q = some (.inl ⟨.path toHostPath, writeable⟩) ∧
          files' toHostPath = files fromHostPath) ∧
        fs.root.labelAt p = none ∧ ∀ x, x ≠ p → x ≠ q → fs.root.labelAt x = self.root.labelAt x

/-- What renaming needs: the host does not rename a file to itself; and if the target is to be created, the host then renames
    the file, and the new file of the host is not that of the source, unless that is empty. -/
structure Renamable (fs : Fs) (host : HostOp → Bool) (files : HostFiles) (source target : GuestPath) : Prop where
  distinct : ∀ p hostPath, FileAtPath fs source p hostPath → Resolves fs target p → p ≠ [] →
    host (.rename hostPath hostPath) = false
  created : ∀ p fromHostPath parent name toHostPath, FileAtPath fs source p fromHostPath →
    NewFile fs target parent name toHostPath → host (.openFile toHostPath writeOptions) = true →
      host (.rename fromHostPath toHostPath) = true ∧ (toHostPath = fromHostPath → files fromHostPath = some [])

theorem files_renamed (h : HostSteps files [.rename s t] files') : files' t = files s := by
  cases h with
  | cons hst hrs =>
    cases hrs
    cases hst
    exact update_self _ _ _

theorem files_created
    (h : HostSteps files [.openFile t writeOptions, .rename s t] files') : files' t = if t = s then some [] else files s := by
  cases h with
  | cons hst hrs =>
    rw [files_renamed hrs]
    cases hst
    have htrn : writeOptions.truncate = true ∨ files t = none := .inl rfl
    rw [if_pos htrn]
    split
    · rename_i heq
      rw [heq, update_self]
    · rename_i hne
      exact update_of_ne (Ne.symm hne) _ _

theorem Deletes.effect {before : Fs}
    (h : Deletes before fs p) (hsc : FileAtPath self source p fromHostPath) (hq : Resolves self target q) (hne : p ≠ q)
    (hlb : before.root.labelAt q = some (.inl ⟨.path toHostPath, true⟩)) (hfe : files' toHostPath = files fromHostPath)
    (hoth : ∀ x, x ≠ p → x ≠ q → before.root.labelAt x = self.root.labelAt x) :
    RenameEffect self fs files files' source target (.ok ()) := by
  refine ⟨p, q, fromHostPath, hsc, hq, ?_⟩
  rw [if_neg hne]
  refine ⟨⟨toHostPath, true, ?_, hfe⟩, (h.labels p).trans (if_pos rfl), fun x hxp hxq => ?_⟩
  · rw [h.labels, if_neg (Ne.symm hne)]
    exact hlb
  · rw [h.labels, if_neg hxp]
    exact hoth x hxp hxq

theorem Renamable.effect {r} (hren : Renamable self host files source target)
    (h : self.rename host source target = .ok (r, fs, ops)) (hfe : HostSteps files ops files') :
    RenameEffect self fs files files' source target r := by
  cases (rename_spec self host source target).ok h with
  | refused e => rfl
  | failed hsc hto => rfl
  | @renamed p q fromHostPath toHostPath _ hsc hto hrnm hpu =>
    have hne : p ≠ q := by
      rintro rfl
      obtain ⟨-, rfl⟩ : p = p ∧ fromHostPath = toHostPath := by
        have heq := hsc.2.symm.trans hto.2
        cases heq
        exact ⟨rfl, rfl⟩
      have hrt : p ≠ [] := by
        rintro rfl
        have hlb := hpu.deletes.labels []
        cases hlb
      rw [hren.distinct p fromHostPath hsc hto.1 hrt] at hrnm
      cases hrnm
    exact hpu.deletes.effect hsc hto.1 hne hto.label (files_renamed hfe) fun _ _ _ => rfl
  | created hsc hnew hoe hen =>
    obtain ⟨hgra, hem⟩ := hren.created _ _ _ _ _ hsc hnew hoe
    rcases hen with ⟨e, -, hdnd⟩ | ⟨fs', heq, hpu⟩
    · rw [hgra] at hdnd
      cases hdnd
    cases heq
    have hadd := hnew.adds
    refine hpu.deletes.effect hsc hnew.resolves (hnew.keeps hsc).1 ((hadd.labels _).trans (if_pos rfl)) ?_
      fun x _ hx => (hadd.labels x).trans (if_neg hx)
    rw [files_created hfe]
    split
    · rename_i heq
      exact (hem heq).symm
    · rfl

/-! The other direction runs `rename` on what is not renamable. -/

theorem renameTo_renamed (ops : List HostOp) (hsc : FileAtPath self source p fromHostPath)
    (hrt : p ≠ []) (hto : FileAtPath self target q toHostPath) (hho : host (.rename fromHostPath toHostPath) = true) :
    ∃ fs, self.renameTo host fromHostPath source target ops = .ok (.ok (), fs, ops ++ [.rename fromHostPath toHostPath]) ∧
      Deletes self fs p := by
  obtain ⟨parent, name, rfl⟩ : ∃ parent name, p = parent ++ [name] := ⟨_, _, (List.dropLast_append_getLast hrt).symm⟩
  obtain ⟨dir, children, hdir, hch⟩ := Tree.exists_parent hsc.2
  refine ⟨self.removeChild parent name, ?_, deletes_source rfl hsc.label hdir hch⟩
  rw [renameTo, lookupNode_of_resolves hto.1, hto.2]
  simp [hho, lookupParentNode_of_resolves hsc.1, hdir, hch]

theorem renameTo_refused (source : GuestPath) (ops : List HostOp) (hto : FileAtPath self target q toHostPath)
    (hho : host (.rename fromHostPath toHostPath) = false) :
    self.renameTo host fromHostPath source target ops =
      .ok (.error .ioError, self, ops ++ [.rename fromHostPath toHostPath]) := by
  rw [renameTo, lookupNode_of_resolves hto.1, hto.2]
  simp [hho]

theorem rename_existing (hsc : FileAtPath self source p fromHostPath)
    (hto : FileAtPath self target q toHostPath) :
    self.rename host source target = self.renameTo host fromHostPath source target [] := by
  rw [rename, lookupNode_of_resolves hsc.1, hsc.2, lookupNode_of_resolves hto.1, hto.2]
  rfl

theorem openWithOptions_new
    (hnew : NewFile self path parent name hostPath) (hho : host (.openFile hostPath writeOptions) = true) :
    self.openWithOptions host path writeOptions = .ok (.ok (.file hostPath),
      self.insert parent name (.file (.path hostPath) true), [.openFile hostPath writeOptions]) := by
  have har : Asserted writeOptions := rfl
  rw [openWithOptions_created har hnew rfl]
  exact if_pos hho

theorem rename_new
    (hsc : FileAtPath self source p fromHostPath) (hnew : NewFile self target parent name toHostPath)
    (hho : host (.openFile toHostPath writeOptions) = true) :
    self.rename host source target = (self.insert parent name (.file (.path toHostPath) true)).renameTo host fromHostPath
      source target [.openFile toHostPath writeOptions] := by
  have hno : self.root.get (parent ++ [name]) = none := by
    have hlb := hnew.adds.new
    rwa [Tree.labelAt, Option.map_eq_none_iff] at hlb
  rw [rename, lookupNode_of_resolves hsc.1, hsc.2, lookupNode_of_resolves hnew.resolves, hno, openWithOptions_new hnew hho]
  rfl

theorem hostSteps_renamed (files : HostFiles) (s t : HostPath) : ∃ files', HostSteps files [.rename s t] files' :=
  ⟨_, .cons (.rename s t) .nil⟩

theorem hostSteps_created (files : HostFiles) (s t : HostPath) :
    ∃ files', HostSteps files [.openFile t writeOptions, .rename s t] files' :=
  ⟨_, .cons (.openFile t writeOptions) (.cons (.rename s t) .nil)⟩

theorem NewFile.ne_nil
    (hnew : NewFile self target parent name toHostPath) (hsc : FileAtPath self source p fromHostPath) : p ≠ [] := by
  rintro rfl
  obtain ⟨-, children, dir, hget, -⟩ := hnew
  have hrt := Option.some_inj.mp hsc.2
  rw [hrt] at hget
  cases parent with
  | nil | cons n parent => cases hget

/-- Renaming does what it should exactly when the paths and the host are renamable. -/
theorem renames_iff_renamable (self : Fs) (host : HostOp → Bool) (files : HostFiles) (source target : GuestPath) :
    (∀ r fs ops files', self.rename host source target = .ok (r, fs, ops) → HostSteps files ops files' →
      RenameEffect self fs files files' source target r) ↔ Renamable self host files source target := by
  refine ⟨fun heffect => ⟨fun p hostPath hsource htarget hroot => ?_, ?_⟩,
    fun hren r fs ops files' hcall hfiles => hren.effect hcall hfiles⟩
  · by_contra hhost
    rw [Bool.not_eq_false] at hhost
    obtain ⟨fs, hcall, hdeletes⟩ := renameTo_renamed [] hsource hroot ⟨htarget, hsource.2⟩ hhost
    rw [← rename_existing hsource ⟨htarget, hsource.2⟩] at hcall
    obtain ⟨files', hfiles⟩ := hostSteps_renamed files hostPath hostPath
    obtain ⟨p', q', from', hsource', hq', hcase⟩ := heffect _ _ _ files' hcall hfiles
    rw [if_pos (hsource'.1.unique hsource.1 |>.trans (htarget.unique hq'))] at hcase
    -- The file is gone, although nothing should have changed.
    have hgone := hdeletes.labels p
    rw [if_pos rfl, hcase.1, hsource.label] at hgone
    cases hgone
  · intro p fromHostPath parent name toHostPath hsource hnew hopened
    have hadds := hnew.adds
    have hto := hnew.fileAtPath
    obtain ⟨hne, hsource₁⟩ := hnew.keeps hsource
    cases hhost : host (.rename fromHostPath toHostPath) with
    | false =>
      have hcall := renameTo_refused source [.openFile toHostPath writeOptions] hto hhost
      rw [← rename_new hsource hnew hopened] at hcall
      obtain ⟨files', hfiles⟩ := hostSteps_created files fromHostPath toHostPath
      have hsame := congrFun (heffect _ _ _ files' hcall hfiles) (parent ++ [name])
      rw [hadds.labels, if_pos rfl, hadds.new] at hsame
      cases hsame
    | true =>
      refine ⟨rfl, fun heq => ?_⟩
      obtain ⟨fs, hcall, hdeletes⟩ := renameTo_renamed [.openFile toHostPath writeOptions] hsource₁
        (hnew.ne_nil hsource) hto hhost
      rw [← rename_new hsource hnew hopened] at hcall
      obtain ⟨files', hfiles⟩ := hostSteps_created files fromHostPath toHostPath
      obtain ⟨p', q', from', hsource', hq', hcase⟩ := heffect _ _ _ files' hcall hfiles
      obtain ⟨rfl, rfl⟩ := hsource'.unique hsource
      obtain rfl := hq'.unique hnew.resolves
      rw [if_neg hne] at hcase
      obtain ⟨⟨to', writeable, hlabel, hcontents⟩, -⟩ := hcase
      rw [hdeletes.labels, if_neg (Ne.symm hne), hadds.labels, if_pos rfl] at hlabel
      cases hlabel
      rw [files_created hfiles, if_pos heq] at hcontents
      exact hcontents.symm

/-- `/a` and `/./a` are the same file, which is gone after it has been renamed. A file that the host does not rename leaves
    the new `/b` behind. -/
theorem renames_lose_and_leave : ∃ fs fs' fs'' : Fs,
    fs.root.labelAt [['a']] = some (.inl ⟨.path [['h'], ['a']], true⟩) ∧ fs.root.labelAt [['b']] = none ∧
    fs.rename (fun _ => true) ['/', 'a'] ['/', '.', '/', 'a'] =
      .ok (.ok (), fs', [.rename [['h'], ['a']] [['h'], ['a']]]) ∧ fs'.root.labelAt [['a']] = none ∧
    fs.rename (fun op => op = .openFile [['h'], ['b']] writeOptions) ['/', 'a'] ['/', 'b'] = .ok (.error .ioError, fs'',
      [.openFile [['h'], ['b']] writeOptions, .rename [['h'], ['a']] [['h'], ['b']]]) ∧
    fs''.root.labelAt [['b']] = some (.inl ⟨.path [['h'], ['b']], true⟩) :=
  ⟨⟨.directory [(['a'], .file (.path [['h'], ['a']]) true)] (some [['h']]), ['/'], ['/']⟩, _, _, rfl, rfl, rfl, rfl,
    rfl, rfl⟩

end TouchHLE.Fs
