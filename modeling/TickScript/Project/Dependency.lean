import TickScript.Project.Lock

/-!
# Resolving dependencies

The dependencies of a project are found by path and bring along their own. Each name is resolved
once, the dependencies of one manifest in order of their names, and what a project depends on comes
before it. The outcome is recorded in the lock file.
-/

namespace TickScript

/-- A dependency that was found. -/
structure ResolvedDependency where
  name : Text
  path : Text
  /-- Its own manifest, if it has a proper one. -/
  manifest? : Option Manifest
deriving DecidableEq, Repr, Inhabited

namespace ResolvedDependency

/-- The directories that it adds to the search path: those it names, or its own. -/
def includePaths (d : ResolvedDependency) : List Text :=
  match d.manifest? with
  | some m => if m.include_.isEmpty then [d.path] else m.includePaths
  | none => [d.path]

end ResolvedDependency

namespace Manifest

/-- Finds one dependency of a manifest. -/
def resolveOne (toml : Toml.Reader) (tree : FileTree) (base : Manifest) (name : Text)
    (dep : Dependency) : Except ProjectError ResolvedDependency :=
  if !dep.path.isEmpty then
    let path := tree.absolute (base.resolve dep.path)
    match tree.stat path with
    | .error error => .error (.dependencyNotFound name path error)
    | .ok _ => .ok ⟨name, path, (load toml tree path).toOption⟩
  else if !dep.git.isEmpty then .error (.dependencyNotFetched dep.git)
  else .error (.dependencyWithoutPlace name)

/-- What was resolved so far: the names, and the dependencies in order. -/
structure Resolution where
  names : List Text := []
  order : List ResolvedDependency := []

/-- The dependencies of a manifest by name. -/
def sortedDependencies (m : Manifest) : List (Text × Dependency) :=
  m.dependencies.mergeSort fun a b => Text.le a.1 b.1

/-- The dependencies that a file declares, if it is a manifest. -/
def declaredIn (toml : Toml.Reader) (content : Text) : Table Text Dependency :=
  ((toml content).bind dependenciesOf?).getD []

/-- The names that a project can come to depend on: those that it declares, and those that any
manifest of the tree does. -/
def namesInReach (toml : Toml.Reader) (tree : FileTree) (m : Manifest) : List Text :=
  m.dependencies.keys ++ tree.files.flatMap fun entry => (declaredIn toml entry.2).keys

/-- Resolves dependencies of a manifest with what they bring along. The fuel bounds the nesting
together with the lists: no name is resolved twice, and no list is longer than all names in reach. -/
def resolveAll (toml : Toml.Reader) (tree : FileTree) :
    (fuel : Nat) → (base : Manifest) → List (Text × Dependency) → Resolution →
      Except ProjectError Resolution
  | 0, _, _, done => .ok done
  | _ + 1, _, [], done => .ok done
  | fuel + 1, base, (name, dep) :: rest, done =>
    if done.names.contains name then resolveAll toml tree fuel base rest done
    else
      match resolveOne toml tree base name dep with
      | .error cause => .error (.resolving name cause)
      | .ok found => do
        let done := { done with names := done.names ++ [name] }
        let done ← match found.manifest? with
          | some m => resolveAll toml tree fuel m m.sortedDependencies done
          | none => .ok done
        resolveAll toml tree fuel base rest { done with order := done.order ++ [found] }

/-- What the lock file says of a resolved dependency: the place that the project itself names, or
the path where one that others brought along was found. -/
def lockedEntry (m : Manifest) (d : ResolvedDependency) : LockedDependency :=
  let dep := (m.dependencies.get? d.name).getD {}
  if !dep.git.isEmpty then { name := d.name, git := dep.git, tag := dep.tag }
  else if !dep.path.isEmpty then { name := d.name, path := dep.path }
  else { name := d.name, path := d.path }

/-- The entries of the lock file, in order of their names. -/
def lockOf (m : Manifest) (order : List ResolvedDependency) : LockFile :=
  (order.mergeSort fun a b => Text.le a.name b.name).map m.lockedEntry

/-- Writes the lock file, and the directory that holds it. -/
def recordLock (tree : FileTree) (m : Manifest) (lock : LockFile) : Except FileError FileTree :=
  match FileTree.makeDirectories (Path.directory m.lockPath) tree with
  | .error error _ => .error error
  | .ok _ tree => LockFile.write tree m.lockPath lock

/-- Resolves the dependencies of a project and records them. Answers them in load order, with the
tree that holds the lock file. -/
def resolveDependencies (toml : Toml.Reader) (tree : FileTree) (m : Manifest) :
    Except ProjectError (List ResolvedDependency × FileTree) := do
  if m.dependencies.isEmpty then return ([], tree)
  match LockFile.read toml tree m.lockPath with
  | .error cause => throw (.readingLock cause)
  | .ok _ =>
    let bound := (m.namesInReach toml tree).length
    let done ← resolveAll toml tree ((bound + 1) * (bound + 1)) m m.sortedDependencies {}
    match m.recordLock tree (m.lockOf done.order) with
    | .error error => throw (.writingLock error)
    | .ok tree => return (done.order, tree)

/-- The include directories of the dependencies in load order. -/
def dependencyIncludes (toml : Toml.Reader) (tree : FileTree) (m : Manifest) :
    Except ProjectError (List Text × FileTree) := do
  let (found, tree) ← m.resolveDependencies toml tree
  return (found.flatMap (·.includePaths), tree)

end Manifest

end TickScript
