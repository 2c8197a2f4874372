import TouchHLE.Lib.Tree

/-! The guest filesystem: `touchHLE/src/fs.rs`.

    A guest path is a list of characters, a path of the host the list of its components. The host is asked to open, create,
    rename or remove something by a `HostOp`; its answer is given with each call, and what was asked is returned with the
    result. The contents of files, time stamps and the files inside an archive are not modelled. -/

namespace TouchHLE

abbrev Name := List Char
abbrev GuestPath := List Char
abbrev HostPath := List Name

namespace Fs

inductive Panic where
  | noBase | relativeBase | openOptions | hostOpen | readOnlyFile | separator | unimplemented | unwrap
  | notAbsolute | noBundle | assertion | fuel
deriving DecidableEq

inductive FileLocation where
  | path (hostPath : HostPath)
  | ipaFileRef (index : Nat)
  | resourceFilePath (name : Name)
deriving DecidableEq

inductive FsError where
  | accessDenied
  | alreadyExist
  | directoryNotEmpty
  | doesNotExist
  | ioError
  | invalidParentDir
  | isDirectory
  | nonexistentParentDir
  | readonlyParentDir
deriving DecidableEq

structure FileNode where
  location : FileLocation
  writeable : Bool
deriving DecidableEq

end Fs
open Fs Lib

/-- A directory is labelled with the path of the host that new files in it get, if it is writeable. -/
abbrev FsNode := Lib.Tree Name FileNode (Option HostPath)

namespace FsNode

@[match_pattern] abbrev file (location : FileLocation) (writeable : Bool) : FsNode := Lib.Tree.leaf ⟨location, writeable⟩

@[match_pattern] abbrev directory (children : List (Name × FsNode)) (writeable : Option HostPath) : FsNode :=
  Lib.Tree.node writeable children

end FsNode

def splitSlash : List Char → List Name
  | [] => [[]]
  | c :: cs =>
    if c = '/' then [] :: splitSlash cs
    else
      match splitSlash cs with
      | [] => [[c]]
      | name :: names => (c :: name) :: names

def applyPathComponent (components : List Name) (component : Name) : List Name :=
  if component = [] then components
  else if component = ['.'] then components
  else if component = ['.', '.'] then components.dropLast
  else components ++ [component]

def resolvePath (path : GuestPath) (relativeTo : Option GuestPath) : Except Panic (List Name) :=
  if path.head? = some '/' then .ok ((splitSlash path).foldl applyPathComponent [])
  else
    match relativeTo with
    | none => .error .noBase
    | some base =>
      if base.head? = some '/' then
        .ok ((splitSlash path).foldl applyPathComponent ((splitSlash base).foldl applyPathComponent []))
      else .error .relativeBase

def spell (components : List Name) : GuestPath := components.flatMap fun component => '/' :: component

def hostJoin (path : HostPath) (name : Name) : HostPath :=
  let components := (splitSlash name).filter fun c => c ≠ [] ∧ c ≠ ['.']
  if name.head? = some '/' then components else path ++ components

structure GuestOpenOptions where
  read : Bool
  write : Bool
  append : Bool
  create : Bool
  truncate : Bool
  exclusive : Bool
deriving DecidableEq

inductive HostOp where
  | openFile (path : HostPath) (options : GuestOpenOptions)
  | writeAll (path : HostPath)
  | rename (source target : HostPath)
  | removeFile (path : HostPath)
  | removeDir (path : HostPath)
  | createDir (path : HostPath)
deriving DecidableEq

def HostOp.touches : HostOp → List HostPath
  | openFile path options => if options.write || options.append || options.create || options.truncate then [path] else []
  | writeAll path => [path]
  | rename source target => [source, target]
  | removeFile path => [path]
  | removeDir path => [path]
  | createDir path => [path]

inductive Opened where
  | file (hostPath : HostPath)
  | ipaBundleFile (index : Nat)
  | resourceFile (name : Name)
  | directory
deriving DecidableEq

structure Fs where
  root : FsNode
  workingDirectory : GuestPath
  homeDirectory : GuestPath

namespace Fs

/-- The result of a function, the filesystem afterwards, and what the host was asked. -/
abbrev Outcome (α : Type) := Except FsError α × Fs × List HostOp

variable (self : Fs) (host : HostOp → Bool) (path : GuestPath)

def changeWorkingDirectory (newPath : GuestPath) : Except Panic (Bool × Fs) := do
  let resolved ← resolvePath newPath (some self.workingDirectory)
  match self.root.get resolved with
  | some (FsNode.directory _ _) =>
    let newPath := if resolved = [] then ['/'] else spell resolved
    .ok (true, { self with workingDirectory := newPath })
  | _ => .ok (false, self)

def lookupNode : Except Panic (Option FsNode) := do
  let resolved ← resolvePath path (some self.workingDirectory)
  .ok (self.root.get resolved)

def «exists» : Except Panic Bool := return (← self.lookupNode path).isSome

structure Access where
  present : Bool
  read : Bool
  write : Bool
  execute : Bool

def access : Except Panic Access := do
  match ← self.lookupNode path with
  | none => .ok ⟨false, false, false, false⟩
  | some (.file _ writeable) => .ok ⟨true, true, writeable, false⟩
  | some (.directory _ writeable) => .ok ⟨true, true, writeable.isSome, true⟩

def lookupParentNode : Except Panic (Option (List Name × FsNode × Name)) := do
  let components ← resolvePath path (some self.workingDirectory)
  match components.getLast? with
  | none => .ok none
  | some finalComponent =>
    .ok ((self.root.get components.dropLast).map fun parent => (components.dropLast, parent, finalComponent))

def insert (parent : List Name) (name : Name) (node : FsNode) : Fs := { self with root := self.root.graft parent name node }

def removeChild (parent : List Name) (name : Name) : Fs := { self with root := self.root.prune parent name }

def handleOpenErr {α : Type} (host : HostOp → Bool) (op : HostOp) (result : Except FsError α) (fs : Fs) :
    Except Panic (Outcome α) :=
  if host op then .ok (result, fs, [op]) else .error .hostOpen

def openExisting (options : GuestOpenOptions) : FsNode → Except Panic (Outcome Opened)
  | .file location writeable =>
    if !writeable && (options.append || options.write) then .ok (.error .accessDenied, self, [])
    else
      match location with
      | .path hostPath =>
        handleOpenErr host (.openFile hostPath { options with create := false }) (.ok (.file hostPath)) self
      | .ipaFileRef index =>
        if writeable || options.append || options.write then .error .readOnlyFile
        else .ok (.ok (.ipaBundleFile index), self, [])
      | .resourceFilePath name =>
        if writeable || options.append || options.write then .error .readOnlyFile
        else .ok (.ok (.resourceFile name), self, [])
  | .directory _ _ => if options.write then .ok (.error .isDirectory, self, []) else .ok (.ok .directory, self, [])

def openWithOptions (options : GuestOpenOptions) : Except Panic (Outcome Opened) := do
  if (options.truncate || options.create) && !(options.write || options.append) then .error .openOptions
  else
    match ← self.lookupParentNode path with
    | none => .ok (.error .doesNotExist, self, [])
    | some (_, .file _ _, _) => .ok (.error .nonexistentParentDir, self, [])
    | some (parent, .directory children dirHostPath, newFilename) =>
      match Tree.findChild newFilename children with
      | some existingFile =>
        if options.create && options.exclusive then .ok (.error .alreadyExist, self, [])
        else self.openExisting host options existingFile
      | none =>
        if !options.create then .ok (.error .doesNotExist, self, [])
        else
          match dirHostPath with
          | none => .ok (.error .accessDenied, self, [])
          | some dirHostPath =>
            if '/' ∈ newFilename then .error .separator
            else
              handleOpenErr host (.openFile (hostJoin dirHostPath newFilename) options)
                (.ok (.file (hostJoin dirHostPath newFilename)))
                (self.insert parent newFilename (.file (.path (hostJoin dirHostPath newFilename)) true))

def writeOptions : GuestOpenOptions := ⟨false, true, false, true, true, false⟩

def write : Except Panic (Outcome Unit) := do
  match ← self.openWithOptions host path writeOptions with
  | (.error e, self, ops) => .ok (.error e, self, ops)
  | (.ok (.file hostPath), self, ops) =>
    .ok (if host (.writeAll hostPath) then .ok () else .error .ioError, self, ops ++ [.writeAll hostPath])
  | (.ok _, _, _) => .error .readOnlyFile

def renameTo (fromHostPath : HostPath) (source target : GuestPath) (ops : List HostOp) : Except Panic (Outcome Unit) := do
  match ← self.lookupNode target with
  | none => .error .unwrap
  | some (.directory _ _) => .ok (.error .isDirectory, self, ops)
  | some (.file (.path toHostPath) toWriteable) =>
    if toWriteable = false then .error .readOnlyFile
    else if host (.rename fromHostPath toHostPath) then
      match ← self.lookupParentNode source with
      | some (parent, .directory children _, component) =>
        match Tree.findChild component children with
        | none => .error .unwrap
        | some _ => .ok (.ok (), self.removeChild parent component, ops ++ [.rename fromHostPath toHostPath])
      | _ => .error .unwrap
    else .ok (.error .ioError, self, ops ++ [.rename fromHostPath toHostPath])
  | some (.file _ _) => .ok (.error .accessDenied, self, ops)

def rename (source target : GuestPath) : Except Panic (Outcome Unit) := do
  match ← self.lookupNode source with
  | none => .ok (.error .doesNotExist, self, [])
  | some (.directory _ _) => .error .unimplemented
  | some (.file (.path fromHostPath) fromWriteable) =>
    if fromWriteable = false then .error .readOnlyFile
    else
      match ← self.lookupNode target with
      | some _ => self.renameTo host fromHostPath source target []
      | none =>
        match ← self.openWithOptions host target writeOptions with
        | (.error e, self, ops) => .ok (.error e, self, ops)
        | (.ok _, self, ops) => self.renameTo host fromHostPath source target ops
  | some (.file _ _) => .ok (.error .isDirectory, self, [])

def remove : Except Panic (Outcome Unit) := do
  match ← self.lookupParentNode path with
  | none => .ok (.error .nonexistentParentDir, self, [])
  | some (_, .file _ _, _) => .ok (.error .invalidParentDir, self, [])
  | some (_, .directory _ none, _) => .ok (.error .readonlyParentDir, self, [])
  | some (parent, .directory children (some _), nodeName) =>
    match Tree.findChild nodeName children with
    | none => .ok (.error .doesNotExist, self, [])
    | some (.file location writeable) =>
      if writeable = false then .ok (.error .accessDenied, self, [])
      else
        match location with
        | .path hostPath => handleOpenErr host (.removeFile hostPath) (.ok ()) (self.removeChild parent nodeName)
        | _ => .error .readOnlyFile
    | some (.directory children writeable) =>
      if children ≠ [] then .ok (.error .directoryNotEmpty, self, [])
      else
        match writeable with
        | none => .ok (.error .accessDenied, self, [])
        | some hostPath => handleOpenErr host (.removeDir hostPath) (.ok ()) (self.removeChild parent nodeName)

def createDir (self : Fs) (host : HostOp → Bool) (path : GuestPath) : Except Panic (Outcome Unit) := do
  match ← self.lookupParentNode path with
  | none => .ok (.error .nonexistentParentDir, self, [])
  | some (_, .file _ _, _) => .ok (.error .invalidParentDir, self, [])
  | some (parent, .directory children dirHostPath, newDirName) =>
    match Tree.findChild newDirName children with
    | some _ => .ok (.error .alreadyExist, self, [])
    | none =>
      match dirHostPath with
      | none => .ok (.error .readonlyParentDir, self, [])
      | some dirHostPath =>
        if '/' ∈ newDirName then .error .separator
        else
          handleOpenErr host (.createDir (hostJoin dirHostPath newDirName)) (.ok ())
            (self.insert parent newDirName (.directory [] (some (hostJoin dirHostPath newDirName))))

def createDirs (host : HostOp → Bool) : List Name → List Name → Fs → List HostOp → Except Panic (Outcome Unit)
  | _, [], self, ops => .ok (.ok (), self, ops)
  | done, component :: rest, self, ops => do
    match ← self.createDir host (spell (done ++ [component])) with
    | (.ok (), self, new) => createDirs host (done ++ [component]) rest self (ops ++ new)
    | (.error .alreadyExist, self, new) => createDirs host (done ++ [component]) rest self (ops ++ new)
    | (.error e, self, new) => .ok (.error e, self, ops ++ new)

def createDirAll : Except Panic (Outcome Unit) := do
  if path.head? = some '/' then
    let components ← resolvePath path none
    createDirs host [] components self []
  else .error .notAbsolute

end Fs

def enumerateLoop : Nat → List Name → List (List (Name × FsNode)) → List GuestPath → Except Panic (List GuestPath)
  | 0, _, _, _ => .error .fuel
  | _ + 1, _, [], _ => .error .unwrap
  | fuel + 1, componentStack, ((nextComponent, nextNode) :: rest) :: iteratorStack, paths =>
    let paths := paths ++ [['/'].intercalate (componentStack ++ [nextComponent])]
    match nextNode with
    | .directory children _ =>
      enumerateLoop fuel (componentStack ++ [nextComponent]) (children :: rest :: iteratorStack) paths
    | .file _ _ => enumerateLoop fuel componentStack (rest :: iteratorStack) paths
  | fuel + 1, componentStack, [] :: iteratorStack, paths =>
    if componentStack = [] then if iteratorStack = [] then .ok paths else .error .assertion
    else enumerateLoop fuel componentStack.dropLast iteratorStack paths

def enumerateRecursive (fuel : Nat) (self : Fs) (path : GuestPath) : Except Panic (Except Unit (List GuestPath)) := do
  match ← self.lookupNode path with
  | some (.directory children _) => return .ok (← enumerateLoop fuel [] [children] [])
  | _ => .ok (.error ())

/-! ### The initial layout -/

inductive HostDir where
  | nil
  | file (name : Name) (rest : HostDir)
  | dir (name : Name) (entries : HostDir) (rest : HostDir)

/-- The children that `from_host_dir` makes from the entries of the directory at `hostPath`. -/
def FsNode.fromEntries (hostPath : HostPath) (writeable : Bool) : HostDir → List (Name × FsNode)
  | .nil => []
  | .file name rest => (name, .file (.path (hostPath ++ [name])) writeable) :: fromEntries hostPath writeable rest
  | .dir name entries rest =>
    (name, .directory (fromEntries (hostPath ++ [name]) writeable entries)
      (if writeable then some (hostPath ++ [name]) else none)) :: fromEntries hostPath writeable rest

def FsNode.fromHostDir (hostPath : HostPath) (writeable : Bool) (entries : HostDir) : FsNode :=
  .directory (fromEntries hostPath writeable entries) (if writeable then some hostPath else none)

inductive Archive where
  | nil
  | file (name : Name) (index : Nat) (rest : Archive)
  | dir (name : Name) (entries : Archive) (rest : Archive)

def FsNode.fromArchive : Archive → List (Name × FsNode)
  | .nil => []
  | .file name index rest => (name, .file (.ipaFileRef index) false) :: fromArchive rest
  | .dir name entries rest => (name, .directory (fromArchive entries) none) :: fromArchive rest

inductive BundleData where
  | hostDirectory (path : HostPath) (entries : HostDir)
  | zip (entries : Archive)

def BundleData.intoFsNode : BundleData → FsNode
  | hostDirectory path entries => .fromHostDir path false entries
  | zip entries => .directory (FsNode.fromArchive entries) none

namespace Fs

/-- The arguments of `Fs::new`, the directory for this app's sandbox, and what its directories hold on the host. -/
structure Setup where
  appBundle : BundleData
  bundleDirName : Name
  readOnlyMode : Bool
  sandbox : HostPath
  entries : Name → HostDir

def applications : List Name := ["var".toList, "mobile".toList, "Applications".toList]

def fakeUuid : Name := "00000000-0000-0000-0000-000000000000".toList

def home : List Name := applications ++ [fakeUuid]

def directories : List Name := ["Documents".toList, "Library".toList, "tmp".toList]

def dylibs : List (Name × Name) := [("libgcc_s.1.dylib".toList, "libgcc_s.1.dylib".toList),
   ("libstdc++.6.dylib".toList, "libstdc++.6.0.9.dylib".toList),
   ("libstdc++.6.0.9.dylib".toList, "libstdc++.6.0.9.dylib".toList),
   ("libz.1.2.3.dylib".toList, "libz.1.2.3.dylib".toList),
   ("libz.1.dylib".toList, "libz.1.2.3.dylib".toList),
   ("libz.dylib".toList, "libz.1.2.3.dylib".toList),
   ("libz.1.1.3.dylib".toList, "libz.1.2.3.dylib".toList),
   ("libsqlite3.dylib".toList, "libsqlite3.dylib".toList),
   ("libsqlite3.0.dylib".toList, "libsqlite3.dylib".toList),
   ("libxml2.2.dylib".toList, "libxml2.2.dylib".toList),
   ("libxml2.dylib".toList, "libxml2.2.dylib".toList),
   ("libxml2.2.7.8.dylib".toList, "libxml2.2.dylib".toList)]

def usrLib : FsNode :=
  .directory (dylibs.map fun lib => (lib.1, .file (.resourceFilePath ("touchHLE_dylibs/".toList ++ lib.2)) false)) none

/-- The bundle, and the sandbox directories unless the filesystem is only to be read. -/
def appDirChildren (setup : Setup) : List (Name × FsNode) :=
  let bundle := Tree.insertChild setup.bundleDirName setup.appBundle.intoFsNode []
  if setup.readOnlyMode then bundle
  else directories.foldl (fun children dir =>
    Tree.insertChild dir (.fromHostDir (setup.sandbox ++ [dir]) true (setup.entries dir)) children) bundle

def dirWith (name : Name) (child : FsNode) : FsNode := .directory [(name, child)] none

def new (setup : Setup) : Except Panic Fs := do
  let root := .directory [("usr".toList, dirWith "lib".toList usrLib),
     ("var".toList, dirWith "mobile".toList (dirWith "Applications".toList
       (dirWith fakeUuid (.directory (appDirChildren setup) none))))] none
  let bundleGuestPath := spell home ++ '/' :: setup.bundleDirName
  let fs : Fs := { root, workingDirectory := bundleGuestPath, homeDirectory := spell home }
  match ← fs.lookupNode bundleGuestPath with
  | some _ => .ok fs
  | none => .error .noBundle

inductive Call where
  | openWithOptions (path : GuestPath) (options : GuestOpenOptions)
  | write (path : GuestPath)
  | rename (source target : GuestPath)
  | remove (path : GuestPath)
  | createDir (path : GuestPath)
  | createDirAll (path : GuestPath)
  | changeWorkingDirectory (newPath : GuestPath)

structure Answer where
  error : Option FsError
  ops : List HostOp

def Answer.of {α : Type} (r : Except FsError α × Fs × List HostOp) : Answer × Fs :=
  (⟨match r.1 with | .ok _ => none | .error e => some e, r.2.2⟩, r.2.1)

def call (self : Fs) (c : Call × (HostOp → Bool)) : Except Panic (Answer × Fs) :=
  match c with
  | (.openWithOptions path options, host) => return Answer.of (← self.openWithOptions host path options)
  | (.write path, host) => return Answer.of (← self.write host path)
  | (.rename source target, host) => return Answer.of (← self.rename host source target)
  | (.remove path, host) => return Answer.of (← self.remove host path)
  | (.createDir path, host) => return Answer.of (← self.createDir host path)
  | (.createDirAll path, host) => return Answer.of (← self.createDirAll host path)
  | (.changeWorkingDirectory newPath, _) => do
    let (found, self) ← self.changeWorkingDirectory newPath
    return (⟨if found then none else some .doesNotExist, []⟩, self)

end Fs
end TouchHLE
