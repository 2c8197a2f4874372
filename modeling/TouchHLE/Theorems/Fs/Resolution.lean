import TouchHLE.Theorems.Fs.Confinement

/-! # Resolution of guest paths

The working directory is kept as a path, which is resolved again with every relative path. Resolution is the same for a path
and for what it resolves to, and relative paths are resolved as if they followed the working directory. -/

namespace TouchHLE.Fs
open Lib List
variable {path : GuestPath}

variable {self fs : Fs} {host : HostOp → Bool} {ops : List HostOp}
variable {components p : List Name} {base d : GuestPath}

theorem splitSlash_ne_nil (cs : List Char) : splitSlash cs ≠ [] := by
  cases cs with
  | nil => exact cons_ne_nil _ _
  | cons c cs =>
    rw [splitSlash]
    split
    · exact cons_ne_nil _ _
    · split <;> exact cons_ne_nil _ _

theorem splitSlash_append (a b : List Char) : splitSlash (a ++ '/' :: b) = splitSlash a ++ splitSlash b := by
  induction a with
  | nil => rfl
  | cons c a ih =>
    rw [cons_append, splitSlash, splitSlash, ih]
    split
    · rfl
    · cases hsp : splitSlash a with
      | nil => exact absurd hsp (splitSlash_ne_nil a)
      | cons name names => rfl

theorem splitSlash_append_spell (h : ∀ n ∈ components, ProperName n) (cs : List Char)
    (hcs : '/' ∉ cs) : splitSlash (cs ++ spell components) = cs :: components := by
  induction components generalizing cs with
  | nil => rw [spell, flatMap_nil, append_nil, splitSlash_eq_singleton hcs]
  | cons name names ih =>
    have hspl : spell (name :: names) = '/' :: (name ++ spell names) := by rw [spell, flatMap_cons]; rfl
    have hnm := (h name mem_cons_self).2.2.2
    rw [hspl, splitSlash_append, splitSlash_eq_singleton hcs, ih (fun n hn => h n (mem_cons_of_mem name hn)) name hnm]
    rfl

theorem foldl_applyPathComponent {acc} (h : ∀ n ∈ components, ProperName n) :
    components.foldl applyPathComponent acc = acc ++ components := by
  induction components generalizing acc with
  | nil => rw [foldl_nil, append_nil]
  | cons name names ih =>
    obtain ⟨hem, hdot, hdtd, -⟩ := h name mem_cons_self
    rw [foldl_cons, applyPathComponent, if_neg hem, if_neg hdot, if_neg hdtd,
      ih fun n hn => h n (mem_cons_of_mem name hn), append_assoc]
    rfl

def absolute (components : List Name) : GuestPath := if components = [] then ['/'] else spell components

theorem head_absolute (components : List Name) : (absolute components).head? = some '/' := by
  cases components with
  | nil => rfl
  | cons name names => rfl

theorem resolvePath_absolute (h : path.head? = some '/') (base : Option GuestPath) :
    resolvePath path base = .ok ((splitSlash path).foldl applyPathComponent []) := if_pos h

theorem resolvePath_relative (h : path.head? ≠ some '/') (hbs : base.head? = some '/') : resolvePath path (some base) =
      .ok ((splitSlash path).foldl applyPathComponent ((splitSlash base).foldl applyPathComponent [])) := by
  rw [resolvePath, if_neg h]
  exact if_pos hbs

theorem foldl_absolute (h : ∀ n ∈ components, ProperName n) :
    (splitSlash (absolute components)).foldl applyPathComponent [] = components := by
  unfold absolute
  split
  · rename_i hnil
    rw [hnil]
    rfl
  · have hsp := splitSlash_append_spell h [] not_mem_nil
    rw [nil_append] at hsp
    rw [hsp, foldl_cons]
    exact foldl_applyPathComponent h

theorem resolvePath_append {a b : GuestPath} (ha : a ≠ []) (h : resolvePath a (some base) = .ok components) :
    resolvePath (a ++ '/' :: b) (some base) = .ok ((splitSlash b).foldl applyPathComponent components) := by
  have hhd : (a ++ '/' :: b).head? = a.head? := by
    cases a with
    | nil => exact absurd rfl ha
    | cons c a => rfl
  unfold resolvePath at h ⊢
  rw [hhd, splitSlash_append]
  split at h
  · rename_i hsls
    cases h
    rw [if_pos hsls, foldl_append]
  · rename_i hsls
    rw [if_neg hsls]
    simp only at h ⊢
    split at h
    · rename_i hbs
      cases h
      rw [if_pos hbs, foldl_append]
    · cases h

/-! ### The working directory -/

theorem changeWorkingDirectory_ok {found} (h : self.changeWorkingDirectory d = .ok (found, fs)) :
    (found = false ∧ fs = self) ∨ ∃ resolved children dir, found = true ∧ Resolves self d resolved ∧
      self.root.get resolved = some (FsNode.directory children dir) ∧
      fs = { self with workingDirectory := absolute resolved } := by
  obtain ⟨resolved, hres, h⟩ := bind_eq_ok.mp h
  split at h
  · rename_i dir children hget
    cases h
    exact .inr ⟨resolved, children, dir, rfl, hres, hget, rfl⟩
  · cases h
    exact .inl ⟨rfl, rfl⟩

theorem rename_directory (self : Fs) (host : HostOp → Bool) (source target : GuestPath) :
    Ensures (self.rename host source target) fun out => out.2.1.workingDirectory = self.workingDirectory := by
  refine (rename_spec self host source target).imp fun out hout => ?_
  cases hout with
  | refused => rfl
  | failed => rfl
  | renamed _ _ _ hpu => exact hpu.deletes.directory
  | created _ _ _ hen =>
    rcases hen with ⟨e, rfl, -⟩ | ⟨fs, rfl, hpu⟩
    · rfl
    · exact hpu.deletes.directory

theorem openWithOptions_directory (self : Fs) (host : HostOp → Bool) (path : GuestPath) (options : GuestOpenOptions) :
    Ensures (self.openWithOptions host path options) fun out => out.2.1.workingDirectory = self.workingDirectory := by
  refine (openWithOptions_spec self host path options).imp fun out hout => ?_
  cases hout with
  | refused => rfl
  | created => rfl
  | existing _ _ _ hoe => rw [(openExisting_same self host options _).ok hoe]

theorem write_directory (self : Fs) (host : HostOp → Bool) (path : GuestPath) :
    Ensures (self.write host path) fun out => out.2.1.workingDirectory = self.workingDirectory := by
  refine (openWithOptions_directory self host path writeOptions).bind ?_
  rintro ⟨e | (hostPath | index | name | _), fs, ops⟩ hsm
  · exact hsm
  · exact hsm
  · trivial
  · trivial
  · trivial

theorem remove_directory (self : Fs) (host : HostOp → Bool) (path : GuestPath) :
    Ensures (self.remove host path) fun out => out.2.1.workingDirectory = self.workingDirectory := by
  refine (remove_spec self host path).imp fun out hout => ?_
  cases hout <;> rfl

theorem createDir_directory (self : Fs) (host : HostOp → Bool) (path : GuestPath) :
    Ensures (self.createDir host path) fun out => out.2.1.workingDirectory = self.workingDirectory := by
  refine (createDir_spec self host path).imp fun out hout => ?_
  cases hout <;> rfl

theorem createDirAll_directory (self : Fs) (host : HostOp → Bool) (path : GuestPath) :
    Ensures (self.createDirAll host path) fun out => out.2.1.workingDirectory = self.workingDirectory := by
  refine .ite (fun _ => Ensures.next fun components _ => ?_) fun _ => trivial
  refine createDirs_ensures (P := fun fs _ => fs.workingDirectory = self.workingDirectory) (fun fs ops path hsm => ?_) rfl
  exact (createDir_directory fs host path).imp fun out hout => hout.trans hsm

def Absolute (self : Fs) : Prop := self.workingDirectory.head? = some '/'

theorem Absolute.call (h : Absolute self) (c : Call × (HostOp → Bool)) : Ensures (self.call c) fun p => Absolute p.2 := by
  obtain ⟨c, host⟩ := c
  have hke : ∀ {fs : Fs}, fs.workingDirectory = self.workingDirectory → Absolute fs := fun heq => by
    rw [Absolute, heq]
    exact h
  cases c with
  | openWithOptions path options => exact (openWithOptions_directory self host path options).bind fun _ hsm => hke hsm
  | write path => exact (write_directory self host path).bind fun _ hsm => hke hsm
  | rename source target => exact (rename_directory self host source target).bind fun _ hsm => hke hsm
  | remove path => exact (remove_directory self host path).bind fun _ hsm => hke hsm
  | createDir path => exact (createDir_directory self host path).bind fun _ hsm => hke hsm
  | createDirAll path => exact (createDirAll_directory self host path).bind fun _ hsm => hke hsm
  | changeWorkingDirectory newPath =>
    refine .next ?_
    rintro ⟨found, fs⟩ hcg
    rcases changeWorkingDirectory_ok hcg with ⟨-, rfl⟩ | ⟨resolved, children, dir, -, -, -, rfl⟩
    · exact h
    · exact head_absolute resolved

theorem absolute_of_runs {setup} {fs₀ : Fs} {guard}
    (hnew : Fs.new setup = .ok fs₀) (hrun : Runs call guard fs₀ fs) : Absolute fs := by
  refine hrun.invariant ?_ fun _ _ _ _ h _ hcl => (h.call _).ok hcl
  obtain ⟨found, -, hnew⟩ := bind_eq_ok.mp hnew
  split at hnew
  · cases hnew
    rfl
  · cases hnew

/-- How paths are resolved in a state, and after the working directory is changed to `d`. -/
structure Resolution (fs : Fs) (d : GuestPath) : Prop where
  /-- Every path resolves, to components that are neither empty nor `.` nor `..`. -/
  components : ∀ path, ∃ p, Resolves fs path p ∧ ∀ n ∈ p, n ≠ [] ∧ n ≠ ['.'] ∧ n ≠ ['.', '.']
  /-- The path that is spelled by the components resolves to them. -/
  respelled : ∀ path p base, Resolves fs path p → resolvePath (absolute p) base = .ok p
  relative : ∀ path, path.head? ≠ some '/' →
    resolvePath path (some fs.workingDirectory) = resolvePath (fs.workingDirectory ++ '/' :: path) none
  /-- One more `..` leads to the parent, and stays at the root. -/
  parent : ∀ (path : GuestPath) (p : List Name), path ≠ [] → Resolves fs path p →
    Resolves fs (path ++ ['/', '.', '.']) p.dropLast
  changed : ∀ fs', fs.changeWorkingDirectory d = .ok (true, fs') → ∀ path, path.head? ≠ some '/' →
    fs'.lookupNode path = fs.lookupNode (d ++ '/' :: path)

theorem Absolute.resolves (h : Absolute self) (path : GuestPath) : ∃ p, Resolves self path p := by
  by_cases hsls : path.head? = some '/'
  · exact ⟨_, resolvePath_absolute hsls _⟩
  · exact ⟨_, resolvePath_relative hsls h⟩

theorem Absolute.relative (h : Absolute self) (hpt : path.head? ≠ some '/') :
    resolvePath path (some self.workingDirectory) = resolvePath (self.workingDirectory ++ '/' :: path) none := by
  have hhd : (self.workingDirectory ++ '/' :: path).head? = some '/' := by
    rw [head?_append, h]
    rfl
  rw [resolvePath_relative hpt h, resolvePath_absolute hhd, splitSlash_append, foldl_append]

theorem resolves_changed (hres : Resolves self d p) (hpt : path.head? ≠ some '/') :
    Resolves { self with workingDirectory := absolute p } path ((splitSlash path).foldl applyPathComponent p) := by
  rw [Resolves, resolvePath_relative hpt (head_absolute p), foldl_absolute hres.proper]

theorem lookupNode_changed (hd : d ≠ []) (hcg : self.changeWorkingDirectory d = .ok (true, fs))
    (hpt : path.head? ≠ some '/') : fs.lookupNode path = self.lookupNode (d ++ '/' :: path) := by
  rcases changeWorkingDirectory_ok hcg with ⟨hfa, -⟩ | ⟨p, children, dir, -, hres, -, rfl⟩
  · cases hfa
  · rw [lookupNode_of_resolves (resolves_changed hres hpt), lookupNode_of_resolves (resolvePath_append hd hres)]

/-- The empty path is the working directory, but followed by a slash it is the root. -/
theorem lookupNode_changed_empty {children}
    {dir} (hres : Resolves self [] p) (hget : self.root.get p = some (FsNode.directory children dir))
    (hcha : ∀ fs', self.changeWorkingDirectory [] = .ok (true, fs') → ∀ path, path.head? ≠ some '/' →
      fs'.lookupNode path = self.lookupNode ([] ++ '/' :: path)) : p = [] := by
  have hcl : self.changeWorkingDirectory [] = .ok (true, { self with workingDirectory := absolute p }) := by
    rw [changeWorkingDirectory, hres]
    simp only [ok_bind, hget]
    rfl
  have hem := hcha _ hcl [] (by simp)
  have hrt : Resolves self ['/'] [] := resolvePath_absolute rfl _
  rw [lookupNode_of_resolves (resolves_changed hres (by simp)), nil_append, lookupNode_of_resolves hrt] at hem
  have hsm : self.root.get p = some self.root := Except.ok.inj hem
  by_contra hp
  exact Nat.lt_irrefl _ (Tree.sizeOf_get_lt hsm hp)

/-- Paths are resolved as they should be in every state that is reached, exactly when the new working directory is not given
    by an empty path, or the working directory is the root or does not exist any more. -/
theorem resolution_iff_of_runs {setup : Setup} {fs₀ : Fs} {guard : Fs → Call × (HostOp → Bool) → Prop}
    (hnew : Fs.new setup = .ok fs₀) (hrun : Runs call guard fs₀ fs) (d : GuestPath) :
    Resolution fs d ↔ (d = [] → ∀ p children dir, Resolves fs [] p →
      fs.root.get p = some (FsNode.directory children dir) → p = []) := by
  have habs := absolute_of_runs hnew hrun
  constructor
  · rintro h rfl p children dir hres hget
    exact lookupNode_changed_empty hres hget h.changed
  · intro hd
    refine ⟨fun path => ?_, fun path p base hres => ?_, fun path hpath => habs.relative hpath, fun path p hpath hres => ?_, ?_⟩
    · obtain ⟨p, hres⟩ := habs.resolves path
      refine ⟨p, hres, fun n hn => ?_⟩
      obtain ⟨hempty, hdot, hdotdot, -⟩ := hres.proper n hn
      exact ⟨hempty, hdot, hdotdot⟩
    · rw [resolvePath_absolute (head_absolute p), foldl_absolute hres.proper]
    · exact resolvePath_append hpath hres
    · intro fs' hchange path hpath
      rcases eq_or_ne d [] with rfl | hne
      · rcases changeWorkingDirectory_ok hchange with ⟨hfalse, -⟩ | ⟨p, children, dir, -, hres, hget, rfl⟩
        · cases hfalse
        · obtain rfl := hd rfl p children dir hres hget
          rw [lookupNode_of_resolves (resolves_changed hres hpath),
            lookupNode_of_resolves (resolvePath_absolute rfl _ : Resolves fs ([] ++ '/' :: path) _)]
          rfl
      · exact lookupNode_changed hne hchange hpath

/-- The working directory is changed to a directory that has just been created. -/
theorem resolution_iff_of_runs_tmp : ∃ fs₀ fs, Fs.new (sampleSetup [['b']]) = .ok fs₀ ∧
    Runs call (fun _ _ => True) fs₀ fs ∧ fs.workingDirectory = spell (home ++ ["tmp".toList, ['d']]) ∧
    (Resolution fs ['.', '.'] ↔ (['.', '.'] = [] → ∀ p children dir, Resolves fs [] p →
      fs.root.get p = some (FsNode.directory children dir) → p = [])) := by
  obtain ⟨fs₀, fs, hnew, hrun, hdir⟩ : ∃ fs₀ fs, Fs.new (sampleSetup [['b']]) = .ok fs₀ ∧
      Runs call (fun _ _ => True) fs₀ fs ∧ fs.workingDirectory = spell (home ++ ["tmp".toList, ['d']]) :=
    ⟨_, _, rfl, .exec [(.createDir (spell (home ++ ["tmp".toList, ['d']])), fun _ => true),
      (.changeWorkingDirectory (spell (home ++ ["tmp".toList, ['d']])), fun _ => true)] .start rfl, rfl⟩
  exact ⟨fs₀, fs, hnew, hrun, hdir, resolution_iff_of_runs hnew hrun _⟩

/-- The empty path is accepted and leaves the working directory at the bundle, where there is no `usr`; but `/usr` exists. -/
theorem empty_path_accepted : ∃ fs fs' : Fs, Fs.new (sampleSetup [['b']]) = .ok fs ∧
    fs.changeWorkingDirectory [] = .ok (true, fs') ∧ fs'.lookupNode "usr".toList = .ok none ∧
    fs.lookupNode ([] ++ '/' :: "usr".toList) = .ok (some (dirWith "lib".toList usrLib)) ∧ ¬Resolution fs [] := by
  refine ⟨_, _, rfl, rfl, rfl, rfl, fun h => ?_⟩
  have hsame := h.changed _ rfl "usr".toList (by decide)
  cases hsame

end TouchHLE.Fs
