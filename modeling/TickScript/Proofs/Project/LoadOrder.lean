import TickScript.Proofs.Project.Resolution
import TickScript.Toml.Parser

/-!
# Load order and lock file

`Manifest.resolve_in_load_order` says what resolving the dependencies of a project answers, for any
tree of files in which everything exists that a project in reach depends on: names may stand in a
cycle, be needed along several ways or be the root's own. The answer has every name once, and the
names are those of the root with what the found manifests bring along. Where no name stands for two
places these are all names in reach, and where no name depends on itself, dependencies come first. The
lock file holds the same names in order.

The order and the names are two different results. That dependencies come first is a property of the
search, proved together with it in `Proofs.Project.Resolution`. Which names are there is the matter
of this module, and there the visited names get in the way: a search that meets a name a second time
does not look at where it leads, so a name that stands for two places is followed to one of them
only. `Brought` says what is in the order in any case, and `OnePlace` is the condition under which
that is everything in reach.

Both examples are searched by hand, through a table of the manifests in reach (`Surveyed`).
-/

namespace TickScript

namespace Text

/-- Names are compared byte by byte. -/
theorem le_total (s t : Text) : (le s t || le t s) = true := by
  induction s generalizing t with
  | nil => rfl
  | cons a s ih =>
      cases t with
      | nil => rfl
      | cons b t =>
          rcases Nat.lt_trichotomy a.toNat b.toNat with hlt | heq | hlt
          · simp [le, UInt8.lt_iff_toNat_lt.2 hlt]
          · obtain rfl := UInt8.toNat_inj.1 heq
            simpa [le] using ih t
          · simp [le, UInt8.lt_iff_toNat_lt.2 hlt]

theorem le_trans (s t u : Text) (hst : le s t = true) (htu : le t u = true) : le s u = true := by
  induction s generalizing t u with
  | nil => rfl
  | cons a s ih =>
      match t, u with
      | [], _ => cases hst
      | _ :: _, [] => cases htu
      | b :: t, c :: u =>
        simp only [le, Bool.or_eq_true, decide_eq_true_eq, Bool.and_eq_true, beq_iff_eq] at hst htu ⊢
        rcases hst with hlt | ⟨rfl, hst⟩
        · rcases htu with hlt' | ⟨rfl, -⟩
          · exact .inl (UInt8.lt_trans hlt hlt')
          · exact .inl hlt
        · rcases htu with hlt' | ⟨rfl, htu⟩
          · exact .inl hlt'
          · exact .inr ⟨rfl, ih t u hst htu⟩

end Text

namespace Manifest

variable {toml : Toml.Reader} {tree : FileTree} {root m : Manifest} {order : List ResolvedDependency}

/-! ## The order -/

/-- A manifest in reach depends on the name. -/
def Needed (toml : Toml.Reader) (tree : FileTree) (root : Manifest) (name : Text) : Prop :=
  ∃ base dep, Reaches toml tree root base ∧ (name, dep) ∈ base.dependencies

/-- One name never stands for two places. -/
def OnePlace (toml : Toml.Reader) (tree : FileTree) (root : Manifest) : Prop :=
  ∀ name base dep base' dep', Reaches toml tree root base → (name, dep) ∈ base.dependencies →
    Reaches toml tree root base' → (name, dep') ∈ base'.dependencies →
    place tree base dep = place tree base' dep'

/-- The names that a project comes to depend on through what stands in an order: its own, and those
that an entry of the order brings along which is itself depended on. -/
inductive Brought (root : Manifest) (order : List ResolvedDependency) : Text → Prop
  | direct {name : Text} : name ∈ root.dependencies.keys → Brought root order name
  | along {d : ResolvedDependency} {name : Text} : Brought root order d.name → d ∈ order →
      name ∈ d.needs → Brought root order name

/-- What can be said of the order in which the dependencies of a project are loaded. -/
structure LoadOrder (toml : Toml.Reader) (tree : FileTree) (root : Manifest)
    (order : List ResolvedDependency) : Prop where
  /-- No name comes twice. -/
  distinct : (order.map (·.name)).Nodup
  /-- Everything is where a manifest in reach says. -/
  found : ∀ d ∈ order, Found toml tree root d
  /-- The names are those that the entries themselves lead to. -/
  exactly : ∀ name, name ∈ order.map (·.name) ↔ Brought root order name
  /-- Nothing in reach is left out, unless one name stands for two places. -/
  complete : OnePlace toml tree root → ∀ name, name ∈ order.map (·.name) ↔ Needed toml tree root name
  first : Acyclic toml tree root → DependenciesFirst order

/-- What a manifest in reach brings in is needed. -/
theorem needed_of_found {d : ResolvedDependency} (h : Found toml tree root d) :
    Needed toml tree root d.name := by
  obtain ⟨base, dep, hbase, hdep, -⟩ := h
  exact ⟨base, dep, hbase, hdep⟩

/-- A search puts nothing into the order that what it ends with does not lead to. An entry stands
behind what it brings along, so this is about an order that holds all of the search. -/
theorem Resolves.brought {base : Manifest} {ds : List (Text × Dependency)} {done done' : Resolution}
    (h : Resolves toml tree base ds done done') (hsub : done'.order ⊆ order)
    (hds : ∀ entry ∈ ds, Brought root order entry.1) :
    ∀ d ∈ done'.order, d ∈ done.order ∨ Brought root order d.name := by
  induction h with
  | nil => exact fun d hd => .inl hd
  | known _ _ ih => exact ih hsub (List.forall_mem_cons.1 hds).2
  | @new base name dep rest found done mid done' _ hfound _ hrest ihin ihrest =>
      obtain ⟨hname, hds'⟩ := List.forall_mem_cons.1 hds
      rw [← name_of_resolveOne hfound] at hname
      have hplaced : mid.order ++ [found] ⊆ order := fun _ hd => hsub (hrest.order_subset hd)
      obtain ⟨hmid, hmem⟩ := List.append_subset.1 hplaced
      intro d hd
      rcases ihrest hsub hds' d hd with hd | hd
      · rcases List.mem_append.1 hd with hd | hd
        · -- within the new name: what it brings along is led to through its own entry
          apply ihin hmid _ d hd
          intro entry hentry
          exact .along hname (hmem List.mem_cons_self)
            (ResolvedDependency.mem_needs_iff.2 ⟨entry.2, hentry⟩)
        · obtain rfl := List.mem_singleton.1 hd
          exact .inr hname
      · exact .inr hd

/-- What a whole search puts into the order are the names that it leads to. -/
theorem Resolves.exactly {done : Resolution} (h : Resolves toml tree m m.sortedDependencies {} done)
    (hnames : done.names.Perm (done.order.map (·.name))) (name : Text) :
    name ∈ done.order.map (·.name) ↔ Brought m done.order name := by
  constructor
  · intro hname
    obtain ⟨d, hd, rfl⟩ := List.mem_map.1 hname
    have hroot : ∀ entry ∈ m.sortedDependencies, Brought m done.order entry.1 := by
      intro entry hentry
      exact .direct (List.mem_map.2 ⟨entry, mem_sortedDependencies.1 hentry, rfl⟩)
    exact (h.brought (List.Subset.refl _) hroot d hd).resolve_left (by simp)
  · intro hname
    induction hname with
    | direct hkey =>
        obtain ⟨entry, hentry, rfl⟩ := List.mem_map.1 hkey
        exact hnames.mem_iff.1 (h.closed.1 entry (mem_sortedDependencies.2 hentry))
    | along _ hd hneeded _ =>
        exact hnames.mem_iff.1 ((h.closed.2 _ hd).resolve_left (by simp) _ hneeded)

/-- Everything in reach is brought along, as long as a name stands for one place: what was found
under a name is then what any other manifest means by it. -/
theorem brought_of_reaches (hone : OnePlace toml tree root) (hfound : ∀ d ∈ order, Found toml tree root d)
    (hexactly : ∀ name, name ∈ order.map (·.name) ↔ Brought root order name) {base : Manifest}
    (hbase : Reaches toml tree root base) : ∀ name ∈ base.dependencies.keys, Brought root order name := by
  induction hbase with
  | root => exact fun name hname => .direct hname
  | @through base m name dep found hbase hdep hresolve hm ih =>
      have hname := ih name (List.mem_map.2 ⟨_, hdep, rfl⟩)
      obtain ⟨d, hd, rfl⟩ := List.mem_map.1 ((hexactly name).2 hname)
      obtain ⟨base', dep', hbase', hdep', hresolve'⟩ := hfound d hd
      obtain ⟨-, -, rfl⟩ := resolveOne_eq_ok_iff.1 hresolve
      obtain ⟨-, -, hsame⟩ := resolveOne_eq_ok_iff.1 hresolve'
      have hplace : place tree base' dep' = place tree base dep :=
        hone d.name base' dep' base dep hbase' hdep' hbase hdep
      have hmanifest : d.manifest? = some m := by
        rw [hsame, hplace]
        exact hm
      intro needed hneeded
      exact .along hname hd (by rwa [ResolvedDependency.needs, hmanifest])

/-- What a whole search leaves is a load order. -/
theorem Resolves.loadOrder {done : Resolution} (h : Resolves toml tree m m.sortedDependencies {} done) :
    LoadOrder toml tree m done.order := by
  have hds : ∀ entry ∈ m.sortedDependencies, entry ∈ m.dependencies :=
    fun _ hentry => mem_sortedDependencies.1 hentry
  obtain ⟨added, horder, hnames⟩ := h.gains
  obtain rfl : done.order = added := by simpa using horder
  replace hnames : done.names.Perm (done.order.map (·.name)) := by simpa using hnames
  have hfound (d) (hd : d ∈ done.order) : Found toml tree m d :=
    (h.found .root hds d hd).resolve_left (by simp)
  have hexactly := h.exactly hnames
  refine ⟨hnames.nodup_iff.1 (h.nodup List.nodup_nil), hfound, hexactly, ?_, ?_⟩
  · intro hone name
    constructor
    · intro hname
      obtain ⟨d, hd, rfl⟩ := List.mem_map.1 hname
      exact needed_of_found (hfound d hd)
    · rintro ⟨base, dep, hbase, hdep⟩
      apply (hexactly name).2
      exact brought_of_reaches hone hfound hexactly hbase name (List.mem_map.2 ⟨_, hdep, rfl⟩)
  · intro hacyclic
    have hempty : DependenciesFirst [] := by
      intro before d after hsplit
      simp at hsplit
    exact (h.first hacyclic .root hds [] nofun nofun hempty).1

/-! ## The answer -/

/-- The entries of the lock file are named as the dependencies and in order. -/
theorem names_lockOf (m : Manifest) (order : List ResolvedDependency) :
    ((m.lockOf order).map (·.name)).Perm (order.map (·.name))
      ∧ ((m.lockOf order).map (·.name)).Pairwise (fun a b => Text.le a b = true) := by
  have hname (d : ResolvedDependency) : (m.lockedEntry d).name = d.name := by
    simp only [lockedEntry]
    split
    · rfl
    · split <;> rfl
  have hnames : (m.lockOf order).map (·.name)
      = (order.mergeSort fun a b => Text.le a.name b.name).map (·.name) := by
    simp only [lockOf, List.map_map]
    exact List.map_congr_left fun d _ => hname d
  rw [hnames]
  refine ⟨(List.mergeSort_perm _ _).map _, List.pairwise_map.2 ?_⟩
  exact List.pairwise_mergeSort (fun a b c => Text.le_trans a.name b.name c.name)
    (fun a b => Text.le_total a.name b.name) order

/-- What resolving the dependencies of a project answers, given their order. -/
structure Answers (toml : Toml.Reader) (tree : FileTree) (m : Manifest)
    (order : List ResolvedDependency) : Prop where
  /-- The order, unless the lock file can be neither read nor written. -/
  outcome : (∃ tree', m.resolveDependencies toml tree = .ok (order, tree'))
    ∨ (∃ cause, LockFile.read toml tree m.lockPath = .error cause
      ∧ m.resolveDependencies toml tree = .error (.readingLock cause))
    ∨ ∃ error, m.recordLock tree (m.lockOf order) = .error error
      ∧ m.resolveDependencies toml tree = .error (.writingLock error)
  /-- A project with dependencies has them recorded. -/
  recorded : ∀ tree', m.resolveDependencies toml tree = .ok (order, tree') → m.dependencies ≠ [] →
    tree'.read m.lockPath = .ok (LockFile.render (m.lockOf order))

/-- The lock file that was recorded is read back. -/
theorem read_of_recordLock {lock : LockFile} {tree' : FileTree} (h : m.recordLock tree lock = .ok tree') :
    tree'.read m.lockPath = .ok (LockFile.render lock) := by
  simp only [recordLock] at h
  split at h
  · cases h
  · exact FileTree.read_of_write h

/-- The parts of resolving a project with dependencies: the lock file is read, the search made and the
lock file written. -/
theorem resolveDependencies_eq {done : Resolution} (hm : m.dependencies ≠ [])
    (h : resolveAll toml tree
      (((m.namesInReach toml tree).length + 1) * ((m.namesInReach toml tree).length + 1)) m
      m.sortedDependencies {} = .ok done) :
    m.resolveDependencies toml tree = match LockFile.read toml tree m.lockPath with
      | .error cause => .error (.readingLock cause)
      | .ok _ => match m.recordLock tree (m.lockOf done.order) with
        | .error error => .error (.writingLock error)
        | .ok tree' => .ok (done.order, tree') := by
  have hempty : m.dependencies.isEmpty = false := by simpa using hm
  simp only [resolveDependencies, hempty, Bool.false_eq_true, if_false]
  cases LockFile.read toml tree m.lockPath with
  | error cause => rfl
  | ok old =>
      simp only [h, bind, Except.bind]
      cases m.recordLock tree (m.lockOf done.order) <;> rfl

/-- A resolution that comes to its end has an answer for every dependency in reach. -/
theorem answers_of_resolveAll {done : Resolution}
    (h : resolveAll toml tree
      (((m.namesInReach toml tree).length + 1) * ((m.namesInReach toml tree).length + 1)) m
      m.sortedDependencies {} = .ok done) : Answers toml tree m done.order := by
  by_cases hm : m.dependencies = []
  · -- nothing is read, searched or written
    have hsorted : m.sortedDependencies = [] := by simp [sortedDependencies, hm]
    rw [hsorted, resolveAll_nil] at h
    obtain rfl := Except.ok.inj h
    refine ⟨.inl ⟨tree, ?_⟩, fun _ _ hne => absurd hm hne⟩
    simp only [resolveDependencies, hm, List.isEmpty_nil, if_true]
    rfl
  · have hresolve := resolveDependencies_eq hm h
    cases hread : LockFile.read toml tree m.lockPath with
    | error cause =>
        rw [hread] at hresolve
        refine ⟨.inr (.inl ⟨cause, hread, hresolve⟩), ?_⟩
        intro tree' hok
        rw [hresolve] at hok
        cases hok
    | ok old =>
        cases hrecord : m.recordLock tree (m.lockOf done.order) with
        | error error =>
            rw [hread, hrecord] at hresolve
            refine ⟨.inr (.inr ⟨error, hrecord, hresolve⟩), ?_⟩
            intro tree' hok
            rw [hresolve] at hok
            cases hok
        | ok written =>
            rw [hread, hrecord] at hresolve
            refine ⟨.inl ⟨written, hresolve⟩, ?_⟩
            intro tree' hok _
            rw [hresolve] at hok
            obtain ⟨-, rfl⟩ := Prod.mk.inj (Except.ok.inj hok)
            exact read_of_recordLock hrecord

/-- The directories of the dependencies, as far as they were resolved. -/
theorem dependencyIncludes_eq (toml : Toml.Reader) (tree : FileTree) (m : Manifest) :
    m.dependencyIncludes toml tree = (m.resolveDependencies toml tree).map
      fun answer => (answer.1.flatMap (·.includePaths), answer.2) := by
  simp only [dependencyIncludes, bind, Except.bind]
  cases m.resolveDependencies toml tree <;> rfl

/-- Where dependencies come first, so do their directories. -/
theorem includes_split {d e : ResolvedDependency} (h : DependenciesFirst order)
    (hdistinct : (order.map (·.name)).Nodup) (hd : d ∈ order) (he : e ∈ order)
    (hneeds : e.name ∈ d.needs) :
    ∃ a b c, order.flatMap (·.includePaths) = a ++ e.includePaths ++ b ++ d.includePaths ++ c := by
  obtain ⟨before, after, rfl⟩ := List.append_of_mem hd
  obtain ⟨e', he', hname⟩ := List.mem_map.1 (h before d after rfl e.name hneeds)
  -- a name stands for one entry only
  have hsame : e' = e := List.inj_on_of_nodup_map hdistinct (List.mem_append_left _ he') he hname
  obtain ⟨first, second, rfl⟩ := List.append_of_mem (hsame ▸ he')
  refine ⟨first.flatMap (·.includePaths), second.flatMap (·.includePaths),
    after.flatMap (·.includePaths), ?_⟩
  simp [List.flatMap_append, List.append_assoc]

/-- Resolving a project whose dependencies all exist answers them in a load order, unless the lock
file cannot be read or written. The lock file then holds their names in order, and where no name
depends on itself, the directories of a dependency come behind those of what it depends on. -/
theorem resolve_in_load_order (hexist : AllExist toml tree m) : ∃ order, LoadOrder toml tree m order
    ∧ Answers toml tree m order
    ∧ (((m.lockOf order).map (·.name)).Perm (order.map (·.name))
      ∧ ((m.lockOf order).map (·.name)).Pairwise (fun a b => Text.le a b = true))
    ∧ m.dependencyIncludes toml tree = (m.resolveDependencies toml tree).map
      (fun answer => (answer.1.flatMap (·.includePaths), answer.2))
    ∧ (Acyclic toml tree m → ∀ d ∈ order, ∀ e ∈ order, e.name ∈ d.needs →
      ∃ a b c, order.flatMap (·.includePaths) = a ++ e.includePaths ++ b ++ d.includePaths ++ c) := by
  obtain ⟨done, hrun, hresolves⟩ := exists_resolves_root hexist
  have horder := hresolves.loadOrder
  refine ⟨done.order, horder, answers_of_resolveAll hrun, names_lockOf m done.order,
    dependencyIncludes_eq toml tree m, ?_⟩
  intro hacyclic d hd e he hneeds
  exact includes_split (horder.first hacyclic) horder.distinct hd he hneeds

/-- Whatever is resolved is a load order. -/
theorem loadOrder_of_resolveDependencies {tree' : FileTree} (hexist : AllExist toml tree m)
    (h : m.resolveDependencies toml tree = .ok (order, tree')) : LoadOrder toml tree m order := by
  obtain ⟨done, hrun, hresolves⟩ := exists_resolves_root hexist
  rcases (answers_of_resolveAll hrun).outcome with ⟨tree'', hok⟩ | ⟨cause, -, hfails⟩ | ⟨error, -, hfails⟩
  · obtain ⟨rfl, -⟩ := Prod.mk.inj (Except.ok.inj (h.symm.trans hok))
    exact hresolves.loadOrder
  · rw [h] at hfails
    cases hfails
  · rw [h] at hfails
    cases hfails

/-- What the root does not declare was brought along by an entry. -/
theorem LoadOrder.exists_needs {name : Text} (h : LoadOrder toml tree root order)
    (hname : name ∈ order.map (·.name)) (hother : name ∉ root.dependencies.keys) :
    ∃ d ∈ order, name ∈ d.needs := by
  rcases (h.exactly name).1 hname with hdirect | ⟨-, hd, hneeds⟩
  · exact absurd hdirect hother
  · exact ⟨_, hd, hneeds⟩

/-! ## Trees that can be searched by hand -/

/-- Whether a table holds all manifests that a search from a root can come to, by their directories. -/
def surveys (toml : Toml.Reader) (tree : FileTree) (root : Manifest) (found : Table Text Manifest) :
    Bool :=
  found.all (fun entry => (load toml tree entry.1).toOption = some entry.2)
    && (root :: found.map (·.2)).all fun base => base.dependencies.all fun entry =>
      !entry.2.path.isEmpty && (tree.stat (place tree base entry.2)).toOption.isSome
        && (found.has (place tree base entry.2)
          || (load toml tree (place tree base entry.2)).toOption.isNone)

/-- A table that holds all manifests in reach. -/
structure Surveyed (toml : Toml.Reader) (tree : FileTree) (root : Manifest)
    (found : Table Text Manifest) : Prop where
  /-- Dependencies are given by their paths, and there is something at each path. -/
  exist : ∀ base ∈ root :: found.map (·.2), ∀ entry ∈ base.dependencies,
    entry.2.path ≠ [] ∧ ∃ node, tree.stat (place tree base entry.2) = .ok node
  /-- What is loaded for a dependency is in the table. -/
  load_eq : ∀ base ∈ root :: found.map (·.2), ∀ entry ∈ base.dependencies,
    (load toml tree (place tree base entry.2)).toOption = found.get? (place tree base entry.2)

/-- A survey that succeeds knows every manifest in reach. -/
theorem surveyed {found : Table Text Manifest} (h : surveys toml tree root found = true) :
    Surveyed toml tree root found := by
  have hsome (path : Text) (hstat : (tree.stat path).toOption.isSome = true) :
      ∃ node, tree.stat path = .ok node := by
    cases hnode : tree.stat path with
    | ok node => exact ⟨node, rfl⟩
    | error error =>
        rw [hnode] at hstat
        cases hstat
  simp only [surveys, Bool.and_eq_true, List.all_eq_true, decide_eq_true_eq] at h
  obtain ⟨hloaded, hclosed⟩ := h
  refine ⟨fun base hbase entry hentry => ?_, fun base hbase entry hentry => ?_⟩
  · obtain ⟨⟨hpath, hstat⟩, -⟩ := hclosed base hbase entry hentry
    exact ⟨by simpa using hpath, hsome _ hstat⟩
  · obtain ⟨-, hknown⟩ := hclosed base hbase entry hentry
    cases hget : found.get? (place tree base entry.2) with
    | some m => exact hloaded (place tree base entry.2, m) (Table.get?_mem hget)
    | none =>
        -- a directory that is not in the table has no manifest
        rw [(Table.has_eq_false_iff _ _).2 hget, Bool.false_or] at hknown
        exact Option.isNone_iff_eq_none.1 hknown

namespace Surveyed

variable {found : Table Text Manifest}

/-- By induction on the path from the root. -/
theorem mem_of_reaches (h : Surveyed toml tree root found) {base : Manifest}
    (hbase : Reaches toml tree root base) : base ∈ root :: found.map (·.2) := by
  induction hbase with
  | root => exact List.mem_cons_self
  | @through base m name dep d _ hdep hresolve hm ih =>
      obtain ⟨-, -, rfl⟩ := resolveOne_eq_ok_iff.1 hresolve
      have hload := h.load_eq base ih _ hdep
      rw [show (load toml tree (place tree base dep)).toOption = some m from hm] at hload
      exact List.mem_cons_of_mem _ (List.mem_map_of_mem (Table.get?_mem hload.symm))

/-- Every dependency in reach has a manifest. -/
theorem allExist (h : Surveyed toml tree root found) : AllExist toml tree root :=
  fun base hbase name dep hdep => h.exist base (h.mem_of_reaches hbase) (name, dep) hdep

/-- A manifest in the table is reached through the dependency that leads to its directory. -/
theorem through (h : Surveyed toml tree root found) {base : Manifest}
    (hbase : Reaches toml tree root base) (name : Text) (dep : Dependency)
    (hdep : (name, dep) ∈ base.dependencies) (hm : found.get? (place tree base dep) = some m) :
    Reaches toml tree root m := by
  have hmem := h.mem_of_reaches hbase
  obtain ⟨hpath, hnode⟩ := h.exist base hmem _ hdep
  exact .through hbase hdep (resolveOne_eq_ok_iff.2 ⟨hpath, hnode, rfl⟩)
    ((h.load_eq base hmem _ hdep).trans hm)

/-- What a dependency was found to be, read off the table. -/
theorem eq_of_resolveOne (h : Surveyed toml tree root found) {base : Manifest} {name : Text}
    {dep : Dependency} {d : ResolvedDependency} (hbase : Reaches toml tree root base)
    (hdep : (name, dep) ∈ base.dependencies) (hresolve : resolveOne toml tree base name dep = .ok d) :
    d = ⟨name, place tree base dep, found.get? (place tree base dep)⟩ := by
  obtain ⟨-, -, rfl⟩ := resolveOne_eq_ok_iff.1 hresolve
  rw [h.load_eq base (h.mem_of_reaches hbase) _ hdep]

/-- If every name is given one path, each name has one place. -/
theorem onePlace (hsurveyed : Surveyed toml tree root found)
    (h : ∀ base ∈ root :: found.map (·.2), ∀ entry ∈ base.dependencies,
      ∀ base' ∈ root :: found.map (·.2), ∀ entry' ∈ base'.dependencies,
        entry.1 = entry'.1 → place tree base entry.2 = place tree base' entry'.2) :
    OnePlace toml tree root := by
  intro name base dep base' dep' hbase hdep hbase' hdep'
  exact h base (hsurveyed.mem_of_reaches hbase) _ hdep base' (hsurveyed.mem_of_reaches hbase') _ hdep'
    rfl

/-- Names that can be ranked so that what is declared ranks lower do not depend on themselves. -/
theorem acyclic (hsurveyed : Surveyed toml tree root found) (rank : Text → Nat)
    (h : ∀ base ∈ root :: found.map (·.2), ∀ entry ∈ base.dependencies,
      ∀ m ∈ found.get? (place tree base entry.2), ∀ other ∈ m.dependencies.keys,
        rank other < rank entry.1) : Acyclic toml tree root := by
  have hstep (name other) (hdepends : DependsOn toml tree root name other) : rank other < rank name := by
    obtain ⟨d, ⟨base, dep, hbase, hdep, hresolve⟩, rfl, hneeds⟩ := hdepends
    have hd := hsurveyed.eq_of_resolveOne hbase hdep hresolve
    rw [ResolvedDependency.needs, congrArg ResolvedDependency.manifest? hd] at hneeds
    cases hm : found.get? (place tree base dep) with
    | none => simp [hm] at hneeds
    | some m =>
        rw [hm] at hneeds
        exact h base (hsurveyed.mem_of_reaches hbase) _ hdep m hm other hneeds
  have hpath (name other) (hleads : Relation.TransGen (DependsOn toml tree root) name other) :
      rank other < rank name := by
    induction hleads with
    | single hdepends => exact hstep _ _ hdepends
    | tail _ hdepends ih => exact lt_trans (hstep _ _ hdepends) ih
  exact fun name hleads => lt_irrefl _ (hpath name name hleads)

end Surveyed

/-- A project in `/r` with two dependencies. -/
def pairProject : Manifest where
  name := []
  version := []
  sources := ["src"]
  include_ := []
  output := "r.bin"
  strict := false
  library := false
  verbosity := 0
  entry := "main"
  budget := 0
  dependencies := [("a", { path := "../a" }), ("b", { path := "../b" })]
  dir := "/r"

/-- Both dependencies of `pairProject` need the same directory. -/
def diamondTree : FileTree where
  cwd := "/r"
  files := [("/a/baranium.toml", "[dependencies]\nx = \x7b path = \"../x\" \x7d"),
    ("/b/baranium.toml", "[dependencies]\nx = \x7b path = \"../x\" \x7d")]
  directories := ["/x"]

/-- The dependencies of `pairProject` mean different directories by the same name, and each of these
has a dependency of its own. -/
def forkedTree : FileTree where
  cwd := "/r"
  files := [("/a/baranium.toml", "[dependencies]\nx = \x7b path = \"../x\" \x7d"),
    ("/b/baranium.toml", "[dependencies]\nx = \x7b path = \"../z\" \x7d"),
    ("/x/baranium.toml", "[dependencies]\nw = \x7b path = \"../w\" \x7d"),
    ("/z/baranium.toml", "[dependencies]\ny = \x7b path = \"../y\" \x7d")]
  directories := ["/w", "/y"]

/-- The manifest of a directory that says no more than that it depends on a path. -/
def needing (dir output name path : Text) : Manifest where
  name := []
  version := []
  sources := ["src"]
  include_ := []
  output
  strict := false
  library := false
  verbosity := 0
  entry := "main"
  budget := 0
  dependencies := [(name, { path })]
  dir

/-- The manifests that `pairProject` reaches in `diamondTree`. -/
def diamondManifests : Table Text Manifest :=
  [("/a", needing "/a" "a.bin" "x" "../x"), ("/b", needing "/b" "b.bin" "x" "../x")]

/-- The manifests that `pairProject` reaches in `forkedTree`. -/
def forkedManifests : Table Text Manifest :=
  [("/a", needing "/a" "a.bin" "x" "../x"), ("/b", needing "/b" "b.bin" "x" "../z"),
    ("/x", needing "/x" "x.bin" "w" "../w"), ("/z", needing "/z" "z.bin" "y" "../y")]

theorem diamondTree_load_order : ∃ order tree',
    pairProject.resolveDependencies Toml.parse diamondTree = .ok (order, tree')
      ∧ OnePlace Toml.parse diamondTree pairProject ∧ Acyclic Toml.parse diamondTree pairProject
      ∧ LoadOrder Toml.parse diamondTree pairProject order
      ∧ tree'.read pairProject.lockPath = .ok (LockFile.render (pairProject.lockOf order)) := by
  have hsurveyed : Surveyed Toml.parse diamondTree pairProject diamondManifests :=
    surveyed (by decide +kernel)
  have hone : OnePlace Toml.parse diamondTree pairProject := hsurveyed.onePlace (by decide +kernel)
  have hacyclic : Acyclic Toml.parse diamondTree pairProject :=
    hsurveyed.acyclic (fun name => if name = [0x78] then 0 else 1) (by decide +kernel)
  obtain ⟨order, horder, hanswers, -⟩ := resolve_in_load_order hsurveyed.allExist
  rcases hanswers.outcome with ⟨tree', hok⟩ | ⟨cause, hfails, -⟩ | ⟨error, hfails, -⟩
  · exact ⟨order, tree', hok, hone, hacyclic, horder, hanswers.recorded tree' hok (by decide)⟩
  · have hread : (LockFile.read Toml.parse diamondTree pairProject.lockPath).toOption.isSome = true := by
      decide +kernel
    simp [hfails, Except.toOption] at hread
  · have hwrite (lock : LockFile) : (pairProject.recordLock diamondTree lock).toOption.isSome = true := rfl
    have hwritten := hwrite (pairProject.lockOf order)
    simp [hfails, Except.toOption] at hwritten

/-- Where a name stands for two places, not every name in reach is resolved: what is needed at the one
place only and what is needed at the other only are not both there. -/
theorem forkedTree_leaves_out : ¬ ∀ (tree : FileTree) (m : Manifest), AllExist Toml.parse tree m →
    ∃ order tree', m.resolveDependencies Toml.parse tree = .ok (order, tree')
      ∧ (order.map (·.name)).Nodup
      ∧ ∀ name, Needed Toml.parse tree m name → name ∈ order.map (·.name) := by
  intro h
  have hsurveyed : Surveyed Toml.parse forkedTree pairProject forkedManifests :=
    surveyed (by decide +kernel)
  have hexist := hsurveyed.allExist
  -- one dependency of the root leads to `w` and the other to `y`, both through an `x`
  have hw : Needed Toml.parse forkedTree pairProject [0x77] := by
    have ha : Reaches Toml.parse forkedTree pairProject (needing "/a" "a.bin" "x" "../x") :=
      hsurveyed.through .root [0x61] { path := "../a" } (by decide +kernel) (by decide +kernel)
    have hx : Reaches Toml.parse forkedTree pairProject (needing "/x" "x.bin" "w" "../w") :=
      hsurveyed.through ha [0x78] { path := "../x" } (by decide +kernel) (by decide +kernel)
    exact ⟨_, { path := "../w" }, hx, by decide +kernel⟩
  have hy : Needed Toml.parse forkedTree pairProject [0x79] := by
    have hb : Reaches Toml.parse forkedTree pairProject (needing "/b" "b.bin" "x" "../z") :=
      hsurveyed.through .root [0x62] { path := "../b" } (by decide +kernel) (by decide +kernel)
    have hz : Reaches Toml.parse forkedTree pairProject (needing "/z" "z.bin" "y" "../y") :=
      hsurveyed.through hb [0x78] { path := "../z" } (by decide +kernel) (by decide +kernel)
    exact ⟨_, { path := "../y" }, hz, by decide +kernel⟩
  obtain ⟨order, tree', hok, -, hall⟩ := h forkedTree pairProject hexist
  have horder := loadOrder_of_resolveDependencies hexist hok
  obtain ⟨d, hd, hdneeds⟩ := horder.exists_needs (hall _ hw) (by decide)
  obtain ⟨e, he, heneeds⟩ := horder.exists_needs (hall _ hy) (by decide)
  have hentries : ∀ base ∈ pairProject :: forkedManifests.map (·.2), ∀ entry ∈ base.dependencies,
      ∀ d : ResolvedDependency, d = ⟨entry.1, place forkedTree base entry.2,
        forkedManifests.get? (place forkedTree base entry.2)⟩ →
      ([0x77] ∈ d.needs → d.name = [0x78] ∧ d.path = "/x")
        ∧ ([0x79] ∈ d.needs → d.name = [0x78] ∧ d.path = "/z") := by
    simp only [forall_eq]
    decide +kernel
  have hfound (d) (hd : d ∈ order) : ([0x77] ∈ d.needs → d.name = [0x78] ∧ d.path = "/x")
      ∧ ([0x79] ∈ d.needs → d.name = [0x78] ∧ d.path = "/z") := by
    obtain ⟨base, dep, hbase, hdep, hresolve⟩ := horder.found d hd
    exact hentries base (hsurveyed.mem_of_reaches hbase) _ hdep d
      (hsurveyed.eq_of_resolveOne hbase hdep hresolve)
  -- but there is only one `x`
  obtain ⟨hdname, hdpath⟩ := (hfound d hd).1 hdneeds
  obtain ⟨hename, hepath⟩ := (hfound e he).2 heneeds
  have hsame : d = e := List.inj_on_of_nodup_map horder.distinct hd he (hdname.trans hename.symm)
  rw [← hsame, hdpath] at hepath
  exact absurd hepath (by decide)

end Manifest

end TickScript
