import Mathlib.Data.List.Sort
import Mathlib.Logic.Relation
import TickScript.Project.Dependency
import TickScript.Proofs.Path

/-!
# The order of dependencies

A project is resolved depth first with one set of names for the whole search: a name is marked before
its own dependencies are looked at, and put into the order behind them. `Manifest.Resolves` is that
search as a relation, without the fuel that bounds it; `Manifest.exists_resolves` says that the fuel
is always enough. What the search leaves is read off the relation: no name twice (`Resolves.nodup`),
everything that is needed (`Resolves.closed`) and nothing else (`Resolves.found`), and if no name
depends on itself then every dependency behind those that it declares (`Resolves.first`).

A set of names for the whole search has two consequences, and they are proved apart. Nothing is
visited twice, so the fuel suffices: what is left to visit shrinks by a name with every nested
search (`exists_resolves`). And a name that is being resolved counts as known, so a cycle is cut
where it is met again; that is why dependencies come first only if there is none (`Resolves.first`).
-/

namespace TickScript

namespace ResolvedDependency

/-- The names that the manifest of a dependency declares. -/
def needs (d : ResolvedDependency) : List Text :=
  match d.manifest? with
  | some m => m.dependencies.keys
  | none => []

/-- What a dependency brings along, in the order in which it is resolved. -/
def brought (d : ResolvedDependency) : List (Text × Dependency) :=
  match d.manifest? with
  | some m => m.sortedDependencies
  | none => []

/-- What a dependency needs is what its manifest brings in. -/
theorem mem_needs_iff {d : ResolvedDependency} {name : Text} :
    name ∈ d.needs ↔ ∃ dep, (name, dep) ∈ d.brought := by
  simp only [needs, brought]
  cases d.manifest? with
  | none => simp
  | some m => simp [Table.keys, Manifest.sortedDependencies, List.mem_mergeSort]

end ResolvedDependency

namespace Manifest

variable {toml : Toml.Reader}

/-! ## Projects in reach -/

/-- Where a dependency of a manifest is. -/
def place (tree : FileTree) (base : Manifest) (dep : Dependency) : Text :=
  tree.absolute (base.resolve dep.path)

/-- A dependency is resolved exactly if it has a path and its manifest can be read there. -/
theorem resolveOne_eq_ok_iff {tree : FileTree} {base : Manifest} {name : Text} {dep : Dependency}
    {found : ResolvedDependency} : resolveOne toml tree base name dep = .ok found
      ↔ dep.path ≠ [] ∧ (∃ node, tree.stat (place tree base dep) = .ok node)
        ∧ found = ⟨name, place tree base dep, (load toml tree (place tree base dep)).toOption⟩ := by
  simp only [resolveOne, place]
  by_cases hpath : dep.path = []
  · simp only [hpath, List.isEmpty_nil, Bool.not_true, Bool.false_eq_true, if_false, ne_eq,
      not_true_eq_false, false_and, iff_false]
    split <;> simp
  · cases hstat : tree.stat (tree.absolute (base.resolve dep.path)) with
    | error error => simp [hpath]
    | ok node =>
        rw [if_pos (by simpa using hpath)]
        constructor
        · exact fun h => ⟨hpath, ⟨node, rfl⟩, (Except.ok.inj h).symm⟩
        · rintro ⟨-, -, rfl⟩
          rfl

/-- It keeps the name that it was asked for under. -/
theorem name_of_resolveOne {tree : FileTree} {base : Manifest} {name : Text} {dep : Dependency}
    {found : ResolvedDependency} (h : resolveOne toml tree base name dep = .ok found) :
    found.name = name := by
  obtain ⟨-, -, rfl⟩ := resolveOne_eq_ok_iff.1 h
  rfl

/-- The manifests that a search from a root can come to. -/
inductive Reaches (toml : Toml.Reader) (tree : FileTree) (root : Manifest) : Manifest → Prop
  | root : Reaches toml tree root root
  | through {base m : Manifest} {name : Text} {dep : Dependency} {found : ResolvedDependency} :
      Reaches toml tree root base → (name, dep) ∈ base.dependencies →
      resolveOne toml tree base name dep = .ok found → found.manifest? = some m → Reaches toml tree root m

/-- Everything that a manifest in reach depends on is given by a path, and there is something at the
path. -/
def AllExist (toml : Toml.Reader) (tree : FileTree) (root : Manifest) : Prop :=
  ∀ base, Reaches toml tree root base → ∀ name dep, (name, dep) ∈ base.dependencies →
    dep.path ≠ [] ∧ ∃ node, tree.stat (place tree base dep) = .ok node

/-- Where all dependencies exist none fails to resolve. -/
theorem AllExist.resolveOne {tree : FileTree} {root base : Manifest} {name : Text} {dep : Dependency}
    (h : AllExist toml tree root) (hbase : Reaches toml tree root base)
    (hdep : (name, dep) ∈ base.dependencies) :
    ∃ found, resolveOne toml tree base name dep = .ok found := by
  obtain ⟨hpath, hnode⟩ := h base hbase name dep hdep
  exact ⟨_, resolveOne_eq_ok_iff.2 ⟨hpath, hnode, rfl⟩⟩

theorem mem_sortedDependencies {m : Manifest} {entry : Text × Dependency} :
    entry ∈ m.sortedDependencies ↔ entry ∈ m.dependencies := List.mem_mergeSort

/-! ## Names in reach -/

theorem dependenciesOf?_of_ofDocument? {dir : Text} {document : Toml.Entries} {m : Manifest}
    (h : ofDocument? dir document = some m) : dependenciesOf? document = some m.dependencies := by
  unfold ofDocument? at h
  obtain ⟨project, -, h⟩ := Option.bind_eq_some_iff.1 h
  obtain ⟨build, -, h⟩ := Option.bind_eq_some_iff.1 h
  obtain ⟨run, -, h⟩ := Option.bind_eq_some_iff.1 h
  obtain ⟨dependencies, hdependencies, h⟩ := Option.bind_eq_some_iff.1 h
  -- the other fields come behind the dependencies and do not matter
  iterate 10 obtain ⟨_, -, h⟩ := Option.bind_eq_some_iff.1 h
  obtain rfl := Option.some.inj h
  exact hdependencies

theorem mem_files_of_read {tree : FileTree} {path content : Text} (h : tree.read path = .ok content) :
    ∃ full, (full, content) ∈ tree.files := by
  simp only [FileTree.read, FileTree.node] at h
  cases hfull : tree.locate path with
  | error fault => simp [hfull, bind, Except.bind] at h
  | ok full =>
      cases hget : tree.files.get? full with
      | some found =>
          obtain rfl : found = content := by simpa [hfull, hget, bind, Except.bind] using h
          exact ⟨full, Table.get?_mem hget⟩
      | none =>
          simp only [hfull, hget, bind, Except.bind] at h
          by_cases hdirectory : tree.isDirectory full = true
          · simp [hdirectory] at h
          · simp [hdirectory] at h

/-- What a loaded manifest depends on stands in a file of the tree. -/
theorem exists_declaredIn {tree : FileTree} {dir : Text} {m : Manifest}
    (h : (load toml tree dir).toOption = some m) :
    ∃ entry ∈ tree.files, declaredIn toml entry.2 = m.dependencies := by
  simp only [load] at h
  cases hread : tree.read (Path.join [dir, manifestName]) with
  | error error => simp [hread, Except.toOption] at h
  | ok content =>
      cases hparse : (toml content).bind (ofDocument? (tree.absolute dir)) with
      | none => simp [hread, hparse, Except.toOption] at h
      | some m' =>
          obtain rfl : m' = m := by simpa [hread, hparse, Except.toOption] using h
          obtain ⟨document, hdocument, hm⟩ := Option.bind_eq_some_iff.1 hparse
          obtain ⟨full, hfile⟩ := mem_files_of_read hread
          refine ⟨_, hfile, ?_⟩
          simp only [declaredIn, hdocument, Option.bind_some, dependenciesOf?_of_ofDocument? hm,
            Option.getD_some]

theorem Reaches.keys_sublist {tree : FileTree} {root base : Manifest} (h : Reaches toml tree root base) :
    base.dependencies.keys.Sublist (root.namesInReach toml tree) := by
  cases h with
  | root => exact List.sublist_append_left _ _
  | through _ _ hfound hm =>
      obtain ⟨-, -, rfl⟩ := resolveOne_eq_ok_iff.1 hfound
      obtain ⟨entry, hentry, hdeclared⟩ := exists_declaredIn hm
      rw [← hdeclared]
      refine List.Sublist.trans ?_ (List.sublist_append_right _ _)
      exact List.sublist_flatten_of_mem (List.mem_map.2 ⟨entry, hentry, rfl⟩)

/-! ## The search as a relation -/

/-- Resolving some dependencies of a manifest, given what was resolved before. A name that is known
already is passed over. Any other is marked as known, then what it brings along is resolved, and then
it takes its place in the order. -/
inductive Resolves (toml : Toml.Reader) (tree : FileTree) :
    Manifest → List (Text × Dependency) → Resolution → Resolution → Prop
  /-- Nothing is left of the list. -/
  | nil {base : Manifest} {done : Resolution} : Resolves toml tree base [] done done
  /-- A name that is marked already is passed over. -/
  | known {base : Manifest} {name : Text} {dep : Dependency} {rest : List (Text × Dependency)}
      {done done' : Resolution} : name ∈ done.names → Resolves toml tree base rest done done' →
      Resolves toml tree base ((name, dep) :: rest) done done'
  /-- A new name is marked and found, then comes the list it brings along, then it is recorded. -/
  | new {base : Manifest} {name : Text} {dep : Dependency} {rest : List (Text × Dependency)}
      {found : ResolvedDependency} {done mid done' : Resolution} : name ∉ done.names →
      resolveOne toml tree base name dep = .ok found →
      Resolves toml tree (found.manifest?.getD base) found.brought
        ⟨done.names ++ [name], done.order⟩ mid →
      Resolves toml tree base rest ⟨mid.names, mid.order ++ [found]⟩ done' →
      Resolves toml tree base ((name, dep) :: rest) done done'

variable {tree : FileTree} {root base : Manifest} {ds : List (Text × Dependency)}
  {done done' : Resolution}

/-- A search adds to the order, and marks what it adds. -/
theorem Resolves.gains (h : Resolves toml tree base ds done done') : ∃ added,
    done'.order = done.order ++ added
      ∧ done'.names.Perm (done.names ++ added.map (·.name)) := by
  induction h with
  | nil => exact ⟨[], by simp, by simp⟩
  | known _ _ ih => exact ih
  | @new base name dep rest found done mid done' _ hfound _ _ ihin ihrest =>
      obtain ⟨within, horder, hnames⟩ := ihin
      obtain ⟨behind, horder', hnames'⟩ := ihrest
      refine ⟨within ++ found :: behind, ?_, ?_⟩
      · rw [horder', horder]
        simp
      · refine hnames'.trans ((hnames.append_right _).trans ?_)
        simp only [List.append_assoc, List.map_append, List.map_cons, List.singleton_append,
          name_of_resolveOne hfound]
        exact List.Perm.append_left _ List.perm_middle.symm

theorem Resolves.names_subset (h : Resolves toml tree base ds done done') : done.names ⊆ done'.names := by
  obtain ⟨added, -, hnames⟩ := h.gains
  exact fun name hname => hnames.mem_iff.2 (List.mem_append_left _ hname)

theorem Resolves.order_subset (h : Resolves toml tree base ds done done') : done.order ⊆ done'.order := by
  obtain ⟨added, horder, -⟩ := h.gains
  rw [horder]
  exact List.subset_append_left _ _

/-- No name is marked twice. -/
theorem Resolves.nodup (h : Resolves toml tree base ds done done') (hnodup : done.names.Nodup) :
    done'.names.Nodup := by
  induction h with
  | nil => exact hnodup
  | known _ _ ih => exact ih hnodup
  | new hnew _ _ _ ihin ihrest =>
      refine ihrest (ihin ?_)
      exact List.nodup_append.2 ⟨hnodup, by simp, by
        rintro known hknown _ hsame rfl
        exact hnew (List.mem_singleton.1 hsame ▸ hknown)⟩

/-- Every dependency that was to be resolved is, and so is what the found ones bring along. -/
theorem Resolves.closed (h : Resolves toml tree base ds done done') :
    (∀ entry ∈ ds, entry.1 ∈ done'.names)
      ∧ ∀ d ∈ done'.order, d ∈ done.order ∨ ∀ name ∈ d.needs, name ∈ done'.names := by
  induction h with
  | nil => exact ⟨nofun, fun d hd => .inl hd⟩
  | known hknown hrest ih =>
      refine ⟨?_, ih.2⟩
      rintro entry (_ | ⟨_, hentry⟩)
      · exact hrest.names_subset hknown
      · exact ih.1 entry hentry
  | @new base name dep rest found done mid done' _ hfound hin hrest ihin ihrest =>
      have hmid : mid.names ⊆ done'.names := hrest.names_subset
      refine ⟨?_, fun d hd => ?_⟩
      · rintro entry (_ | ⟨_, hentry⟩)
        · exact hmid (hin.names_subset (by simp))
        · exact ihrest.1 entry hentry
      · rcases ihrest.2 d hd with hd | hneeds
        · rcases List.mem_append.1 hd with hd | hd
          · exact (ihin.2 d hd).imp id fun hneeds name hname => hmid (hneeds name hname)
          · obtain rfl := List.mem_singleton.1 hd
            refine .inr fun name hname => ?_
            obtain ⟨dep, hbrought⟩ := ResolvedDependency.mem_needs_iff.1 hname
            exact hmid (ihin.1 (name, dep) hbrought)
        · exact .inr hneeds

/-- The dependency was found where a manifest in reach says. -/
def Found (toml : Toml.Reader) (tree : FileTree) (root : Manifest) (d : ResolvedDependency) : Prop :=
  ∃ base dep, Reaches toml tree root base ∧ (d.name, dep) ∈ base.dependencies
    ∧ resolveOne toml tree base d.name dep = .ok d

/-- What a dependency brings along is declared by a manifest in reach. -/
theorem Reaches.brought {name : Text} {dep : Dependency} {found : ResolvedDependency}
    (h : Reaches toml tree root base) (hdep : (name, dep) ∈ base.dependencies)
    (hfound : resolveOne toml tree base name dep = .ok found) :
    Reaches toml tree root (found.manifest?.getD base)
      ∧ ∀ entry ∈ found.brought, entry ∈ (found.manifest?.getD base).dependencies := by
  cases hm : found.manifest? with
  | none => exact ⟨h, by simp [ResolvedDependency.brought, hm]⟩
  | some m =>
      refine ⟨.through h hdep hfound hm, fun entry hentry => ?_⟩
      rw [ResolvedDependency.brought, hm] at hentry
      exact mem_sortedDependencies.1 hentry

theorem Resolves.found (h : Resolves toml tree base ds done done') (hbase : Reaches toml tree root base)
    (hds : ∀ entry ∈ ds, entry ∈ base.dependencies) :
    ∀ d ∈ done'.order, d ∈ done.order ∨ Found toml tree root d := by
  induction h with
  | nil => exact fun d hd => .inl hd
  | known _ _ ih => exact ih hbase (List.forall_mem_cons.1 hds).2
  | @new base name dep rest found done mid done' _ hfound _ _ ihin ihrest =>
      obtain ⟨hdep, hds'⟩ := List.forall_mem_cons.1 hds
      obtain ⟨hreach, hbrought⟩ := hbase.brought hdep hfound
      intro d hd
      rcases ihrest hbase hds' d hd with hd | hd
      · rcases List.mem_append.1 hd with hd | hd
        · exact ihin hreach hbrought d hd
        · obtain rfl := List.mem_singleton.1 hd
          have hname := name_of_resolveOne hfound
          exact .inr ⟨base, dep, hbase, by rwa [hname], by rwa [hname]⟩
      · exact .inr hd

/-! ## The fuel is enough -/

theorem Reaches.length_brought_le {name : Text} {dep : Dependency} {found : ResolvedDependency}
    (h : Reaches toml tree root base) (hdep : (name, dep) ∈ base.dependencies)
    (hfound : resolveOne toml tree base name dep = .ok found) :
    found.brought.length ≤ (root.namesInReach toml tree).length := by
  cases hm : found.manifest? with
  | none => simp [ResolvedDependency.brought, hm]
  | some m =>
      have hkeys := (Reaches.through h hdep hfound hm).keys_sublist.length_le
      simpa [ResolvedDependency.brought, hm, sortedDependencies, List.length_mergeSort, Table.keys]
        using hkeys

@[simp] theorem resolveAll_nil (tree : FileTree) (fuel : Nat) (base : Manifest) (done : Resolution) :
    resolveAll toml tree fuel base [] done = .ok done := by
  cases fuel <;> rfl

/-- A new name: what it brings along, then the rest. -/
theorem resolveAll_new {name : Text} {dep : Dependency} {rest : List (Text × Dependency)}
    {found : ResolvedDependency} (fuel : Nat) (hnew : name ∉ done.names)
    (hfound : resolveOne toml tree base name dep = .ok found) :
    resolveAll toml tree (fuel + 1) base ((name, dep) :: rest) done
      = (resolveAll toml tree fuel (found.manifest?.getD base) found.brought
          ⟨done.names ++ [name], done.order⟩).bind
        fun mid => resolveAll toml tree fuel base rest ⟨mid.names, mid.order ++ [found]⟩ := by
  rw [resolveAll, if_neg (by simpa using hnew), hfound]
  simp only [ResolvedDependency.brought]
  cases found.manifest? with
  | some m => rfl
  | none =>
      simp only [resolveAll_nil]
      rfl

/-- Where everything exists the search comes to its end, if there is fuel for the list at hand and for
one list of greatest length for every name that is not known yet. -/
theorem exists_resolves (hexist : AllExist toml tree root) (fuel : Nat) (done : Resolution)
    (hbase : Reaches toml tree root base) (hds : ∀ entry ∈ ds, entry ∈ base.dependencies)
    (hfuel : ds.length + Text.remaining (root.namesInReach toml tree) done.names
      * ((root.namesInReach toml tree).length + 1) < fuel) :
    ∃ done', resolveAll toml tree fuel base ds done = .ok done'
      ∧ Resolves toml tree base ds done done' := by
  induction fuel generalizing base ds done with
  | zero => omega
  | succ fuel ih =>
      match ds with
      | [] => exact ⟨done, rfl, .nil⟩
      | (name, dep) :: rest =>
        obtain ⟨hdep, hrest⟩ := List.forall_mem_cons.1 hds
        rw [List.length_cons] at hfuel
        -- a name that is marked already costs nothing
        by_cases hknown : name ∈ done.names
        · obtain ⟨done', hrun, hresolves⟩ := ih done hbase hrest (by omega)
          refine ⟨done', ?_, .known hknown hresolves⟩
          rw [resolveAll, if_pos (by simpa using hknown), hrun]
        · obtain ⟨found, hfound⟩ := hexist.resolveOne hbase hdep
          obtain ⟨hreach, hbrought⟩ := hbase.brought hdep hfound
          -- marking the name pays for the list that it brings along
          have hmem : name ∈ root.namesInReach toml tree :=
            hbase.keys_sublist.subset (List.mem_map.2 ⟨_, hdep, rfl⟩)
          have hless := Text.remaining_lt (List.subset_append_left done.names [name]) hmem hknown
            (by simp)
          have hpaid := Nat.mul_le_mul_right ((root.namesInReach toml tree).length + 1)
            (Nat.succ_le_of_lt hless)
          have hlength := hbase.length_brought_le hdep hfound
          rw [Nat.succ_mul] at hpaid
          -- first the list that the new one brings along, then the rest of its own list
          obtain ⟨mid, hmid, hin⟩ := ih ⟨done.names ++ [name], done.order⟩ hreach hbrought (by
            show found.brought.length + Text.remaining _ (done.names ++ [name]) * _ < fuel
            omega)
          have hscaled : Text.remaining (root.namesInReach toml tree) mid.names * _
              ≤ Text.remaining (root.namesInReach toml tree) (done.names ++ [name]) * _ :=
            Nat.mul_le_mul_right ((root.namesInReach toml tree).length + 1)
              (Text.remaining_anti hin.names_subset)
          obtain ⟨done', hrun, hresolves⟩ := ih ⟨mid.names, mid.order ++ [found]⟩ hbase hrest (by
            show rest.length + Text.remaining _ mid.names * _ < fuel
            omega)
          refine ⟨done', ?_, .new hknown hfound hin hresolves⟩
          rw [resolveAll_new fuel hknown hfound, hmid]
          exact hrun

/-- The fuel of a whole search. -/
theorem exists_resolves_root (hexist : AllExist toml tree root) : ∃ done,
    resolveAll toml tree (((root.namesInReach toml tree).length + 1) * ((root.namesInReach toml tree).length + 1))
      root root.sortedDependencies {} = .ok done
    ∧ Resolves toml tree root root.sortedDependencies {} done := by
  refine exists_resolves hexist _ {} .root (fun _ hentry => mem_sortedDependencies.1 hentry) ?_
  have hlength : root.sortedDependencies.length ≤ (root.namesInReach toml tree).length := by
    have hroot : Reaches toml tree root root := .root
    have hkeys := hroot.keys_sublist.length_le
    simpa [sortedDependencies, List.length_mergeSort, Table.keys] using hkeys
  have hremaining := Nat.mul_le_mul_right ((root.namesInReach toml tree).length + 1)
    (Text.remaining_le (root.namesInReach toml tree) [])
  rw [Nat.succ_mul]
  show root.sortedDependencies.length + Text.remaining (root.namesInReach toml tree) [] * _ < _
  omega

/-! ## Dependencies first -/

/-- One name depends on another: what was found under it declares the other one. -/
def DependsOn (toml : Toml.Reader) (tree : FileTree) (root : Manifest) (name other : Text) : Prop :=
  ∃ d, Found toml tree root d ∧ d.name = name ∧ other ∈ d.needs

/-- No name depends on itself, not even through others. -/
def Acyclic (toml : Toml.Reader) (tree : FileTree) (root : Manifest) : Prop :=
  ∀ name, ¬ Relation.TransGen (DependsOn toml tree root) name name

/-- Every dependency comes behind all those that it declares. -/
def DependenciesFirst (order : List ResolvedDependency) : Prop :=
  ∀ before d after, order = before ++ d :: after → ∀ name ∈ d.needs, name ∈ before.map (·.name)

theorem DependenciesFirst.concat {order : List ResolvedDependency} {d : ResolvedDependency}
    (h : DependenciesFirst order) (hd : ∀ name ∈ d.needs, name ∈ order.map (·.name)) :
    DependenciesFirst (order ++ [d]) := by
  intro before e after hsplit
  rcases List.eq_nil_or_concat after with rfl | ⟨after', last, rfl⟩
  · obtain ⟨rfl, hlast⟩ := List.append_inj' hsplit rfl
    obtain rfl : d = e := by simpa using hlast
    exact hd
  · have hsplit' : order ++ [d] = (before ++ e :: after') ++ [last] := by simpa using hsplit
    obtain ⟨horder, -⟩ := List.append_inj' hsplit' rfl
    exact h before e after' horder

/-- Every name that is known is in the order, or among those whose own dependencies are being
resolved. -/
def Settled (inside : List Text) (done : Resolution) : Prop :=
  ∀ name ∈ done.names, name ∈ inside ∨ name ∈ done.order.map (·.name)

/-- In an acyclic tree the search puts dependencies first. It is inside of some names, each of which
leads to everything that is to be resolved, so none of them is met again. -/
theorem Resolves.first (h : Resolves toml tree base ds done done') (hacyclic : Acyclic toml tree root)
    (hbase : Reaches toml tree root base) (hds : ∀ entry ∈ ds, entry ∈ base.dependencies)
    (inside : List Text) (hsettled : Settled inside done)
    (hleads : ∀ outer ∈ inside, ∀ entry ∈ ds, Relation.TransGen (DependsOn toml tree root) outer entry.1)
    (hfirst : DependenciesFirst done.order) :
    DependenciesFirst done'.order ∧ Settled inside done'
      ∧ ∀ entry ∈ ds, entry.1 ∈ done'.order.map (·.name) := by
  induction h generalizing inside with
  | nil => exact ⟨hfirst, hsettled, nofun⟩
  | @known base name dep rest done done' hknown hrest ih =>
      obtain ⟨hfirst', hsettled', hall⟩ := ih hbase (List.forall_mem_cons.1 hds).2 inside hsettled
        (fun outer houter => (List.forall_mem_cons.1 (hleads outer houter)).2) hfirst
      refine ⟨hfirst', hsettled', ?_⟩
      rintro entry (_ | ⟨_, hentry⟩)
      · -- a name that the search is inside of would lead to itself
        rcases hsettled name hknown with hinside | horder
        · exact absurd (hleads name hinside _ List.mem_cons_self) (hacyclic name)
        · exact List.map_subset _ hrest.order_subset horder
      · exact hall entry hentry
  | @new base name dep rest found done mid done' hnew hfound hin hrest ihin ihrest =>
      obtain ⟨hdep, hds'⟩ := List.forall_mem_cons.1 hds
      have hname := name_of_resolveOne hfound
      obtain ⟨hreach, hbrought⟩ := hbase.brought hdep hfound
      have hedge (entry) (hentry : entry ∈ found.brought) : DependsOn toml tree root name entry.1 :=
        ⟨found, ⟨base, dep, hbase, by rwa [hname], by rwa [hname]⟩, hname,
          ResolvedDependency.mem_needs_iff.2 ⟨entry.2, hentry⟩⟩
      -- inside the new name
      obtain ⟨hfirstIn, hsettledIn, hallIn⟩ := ihin hreach hbrought (name :: inside)
        (by
          intro known hknown
          rcases List.mem_append.1 hknown with hknown | hsame
          · exact (hsettled known hknown).imp (List.mem_cons_of_mem _) id
          · exact .inl (List.mem_singleton.1 hsame ▸ List.mem_cons_self))
        (by
          rintro outer (_ | ⟨_, houter⟩) entry hentry
          · exact .single (hedge entry hentry)
          · exact (hleads outer houter _ List.mem_cons_self).tail (hedge entry hentry))
        hfirst
      -- then the rest, with the new name in its place
      have hplaced : DependenciesFirst (mid.order ++ [found]) := by
        refine hfirstIn.concat fun needed hneeded => ?_
        obtain ⟨dep', hentry⟩ := ResolvedDependency.mem_needs_iff.1 hneeded
        exact hallIn _ hentry
      have hsettledMid : Settled inside ⟨mid.names, mid.order ++ [found]⟩ := by
        intro known hknown
        simp only [List.map_append, List.map_cons, List.map_nil, List.mem_append, List.mem_singleton]
        rcases hsettledIn known hknown with hinside | horder
        · rcases List.mem_cons.1 hinside with rfl | hinside
          · exact .inr (.inr hname.symm)
          · exact .inl hinside
        · exact .inr (.inl horder)
      obtain ⟨hfirst', hsettled', hall⟩ := ihrest hbase hds' inside hsettledMid
        (fun outer houter => (List.forall_mem_cons.1 (hleads outer houter)).2) hplaced
      refine ⟨hfirst', hsettled', ?_⟩
      rintro entry (_ | ⟨_, hentry⟩)
      · have hmem : found ∈ done'.order := hrest.order_subset (by simp)
        exact List.mem_map.2 ⟨found, hmem, hname⟩
      · exact hall entry hentry

end Manifest

end TickScript
