import Mathlib.Data.Finset.Card
import TickScript.FileStore
import TickScript.Proofs.Table

/-!
# Clean paths

The clean absolute paths are those of the form `Path.rooted elements`, where no element is empty,
holds a separator or is a step to the same or the parent directory. Taking the absolute form of such
a path gives it back, and following it through a tree of files leads to itself. A file that is found
under its absolute path is therefore found under no other one. Searches that go from file to file end
because ever fewer of the names that they can meet remain (`Text.remaining`).

A file store is a table from texts to contents, and one file could be listed under several spellings
of its path. What rules that out is the absolute form, and the lemmas here show that it is a normal
form: taking it twice changes nothing, and joining, cleaning and following a path stay within it.
-/

namespace TickScript

namespace Text

/-! ## Searches -/

/-- How many of some texts were not seen yet. -/
def remaining (all seen : List Text) : Nat := (all.toFinset \ seen.toFinset).card

theorem remaining_le (all seen : List Text) : remaining all seen ≤ all.length :=
  (Finset.card_le_card Finset.sdiff_subset).trans (List.toFinset_card_le all)

/-- The more has been seen, the less remains. -/
theorem remaining_anti {all seen seen' : List Text} (h : seen ⊆ seen') :
    remaining all seen' ≤ remaining all seen := by
  refine Finset.card_le_card (Finset.sdiff_subset_sdiff (Finset.Subset.refl _) ?_)
  intro text htext
  exact List.mem_toFinset.2 (h (List.mem_toFinset.1 htext))

/-- One less remains when another one is seen. -/
theorem remaining_lt {all seen seen' : List Text} {text : Text} (h : seen ⊆ seen') (hmem : text ∈ all)
    (hnew : text ∉ seen) (hseen : text ∈ seen') : remaining all seen' < remaining all seen := by
  refine Finset.card_lt_card (Finset.ssubset_iff_of_subset ?_ |>.2 ⟨text, ?_, ?_⟩)
  · refine Finset.sdiff_subset_sdiff (Finset.Subset.refl _) fun other hother => ?_
    exact List.mem_toFinset.2 (h (List.mem_toFinset.1 hother))
  · simp [hmem, hnew]
  · simp [hseen]

/-! ## Parts -/

/-- There is always a last part. -/
theorem splitOn_ne_nil (sep : UInt8) (t : Text) : splitOn sep t ≠ [] := by
  fun_induction splitOn sep t with
  | case1 => simp
  | case2 => simp
  | case3 => simp
  | case4 => simp

/-- Splitting goes on behind a separator as if the text started there. -/
theorem splitOn_append_cons (sep : UInt8) (a b : Text) :
    splitOn sep (a ++ sep :: b) = splitOn sep a ++ splitOn sep b := by
  induction a with
  | nil => simp [splitOn]
  | cons c a ih =>
      simp only [List.cons_append, splitOn, ih]
      by_cases hc : (c == sep) = true
      · simp [hc]
      · simp only [hc, Bool.false_eq_true, if_false]
        cases hparts : splitOn sep a with
        | nil => exact absurd hparts (splitOn_ne_nil sep a)
        | cons part rest => rfl

theorem splitOn_of_notMem {sep : UInt8} {t : Text} (h : sep ∉ t) : splitOn sep t = [t] := by
  induction t with
  | nil => rfl
  | cons c t ih =>
      have hne : ¬ (c == sep) = true := by
        simp only [beq_iff_eq]
        rintro rfl
        exact h List.mem_cons_self
      simp [splitOn, hne, ih fun hmem => h (List.mem_cons_of_mem _ hmem)]

/-- No part has the separator in it. -/
theorem notMem_of_mem_splitOn {sep : UInt8} {t part : Text} (h : part ∈ splitOn sep t) :
    sep ∉ part := by
  fun_induction splitOn sep t generalizing part with
  | case1 =>
      obtain rfl := List.mem_singleton.1 h
      exact List.not_mem_nil
  | case2 b t hb ih =>
      rcases List.mem_cons.1 h with rfl | h
      · exact List.not_mem_nil
      · exact ih h
  | case3 b t hb hparts ih => exact absurd hparts (splitOn_ne_nil sep t)
  | case4 b t hb first rest hparts ih =>
      rw [hparts] at ih
      rcases List.mem_cons.1 h with rfl | h
      · have hfirst := ih List.mem_cons_self
        rintro hmem
        rcases List.mem_cons.1 hmem with rfl | hmem
        · simp at hb
        · exact hfirst hmem
      · exact ih (List.mem_cons_of_mem _ h)

theorem join_cons_cons (sep a b : Text) (rest : List Text) :
    join sep (a :: b :: rest) = a ++ sep ++ join sep (b :: rest) := by
  simp [join]

theorem join_singleton (sep a : Text) : join sep [a] = a := by simp [join]

/-- Splitting takes apart what was joined. -/
theorem splitOn_join {sep : UInt8} {parts : List Text} (hnil : parts ≠ [])
    (h : ∀ part ∈ parts, sep ∉ part) : splitOn sep (join [sep] parts) = parts := by
  induction parts with
  | nil => exact absurd rfl hnil
  | cons a rest ih =>
      have ha := splitOn_of_notMem (h a List.mem_cons_self)
      cases rest with
      | nil => rw [join_singleton, ha]
      | cons b rest =>
          rw [join_cons_cons, List.append_assoc, List.singleton_append, splitOn_append_cons, ha,
            ih (by simp) fun part hpart => h part (List.mem_cons_of_mem _ hpart)]
          rfl

end Text

namespace Path

open Text

/-- An element of a clean absolute path. -/
structure Plain (element : Text) : Prop where
  nonempty : element ≠ []
  notHere : element ≠ [0x2E]
  notParent : element ≠ [0x2E, 0x2E]
  whole : slash ∉ element

/-- The clean absolute path with some elements. -/
def rooted (elements : List Text) : Text := slash :: Text.join [slash] elements

variable {elements done : List Text} {element cwd p : Text}

theorem isAbsolute_rooted (elements : List Text) : isAbsolute (rooted elements) = true := rfl

theorem rooted_ne_nil (elements : List Text) : rooted elements ≠ [] := List.cons_ne_nil _ _

/-! ## Cleaning -/

/-- An element that is neither empty nor dots is kept. -/
theorem pushElement_plain (h : Plain element) : pushElement true done element = element :: done := by
  simp [pushElement, h.nonempty, h.notHere, h.notParent]

/-- So a clean path is kept as it is. -/
theorem foldl_pushElement_plain (h : ∀ e ∈ elements, Plain e) :
    elements.foldl (pushElement true) done = elements.reverse ++ done := by
  induction elements generalizing done with
  | nil => rfl
  | cons e elements ih =>
      rw [List.foldl_cons, pushElement_plain (h e List.mem_cons_self),
        ih fun e' he' => h e' (List.mem_cons_of_mem _ he')]
      simp

/-- An element that holds no separator leaves plain elements only. -/
theorem plain_pushElement (hdone : ∀ e ∈ done, Plain e) (helement : slash ∉ element) :
    ∀ e ∈ pushElement true done element, Plain e := by
  intro e he
  unfold pushElement at he
  split at he
  · exact hdone e he
  · next hhere =>
      split at he
      · next hparent =>
          cases done with
          | nil => cases he
          | cons top below =>
              simp only at he
              split at he
              · next htop => exact absurd (eq_of_beq htop) (hdone top List.mem_cons_self).notParent
              · exact hdone e (List.mem_cons_of_mem _ he)
      · next hparent =>
          rcases List.mem_cons.1 he with rfl | he
          · have hnil : e ≠ [] ∧ e ≠ [0x2E] := by simpa using hhere
            exact ⟨hnil.1, hnil.2, by simpa using hparent, helement⟩
          · exact hdone e he

/-- Whatever is kept is plain: dots have been resolved, and the root has nothing above it. -/
theorem plain_foldl_pushElement {parts : List Text} (hdone : ∀ e ∈ done, Plain e)
    (hparts : ∀ part ∈ parts, slash ∉ part) : ∀ e ∈ parts.foldl (pushElement true) done, Plain e := by
  induction parts generalizing done with
  | nil => exact hdone
  | cons part parts ih =>
      exact ih (plain_pushElement hdone (hparts part List.mem_cons_self)) fun part' hpart' =>
        hparts part' (List.mem_cons_of_mem _ hpart')

theorem clean_of_isAbsolute (h : isAbsolute p = true) :
    clean p = rooted ((splitOn slash p).foldl (pushElement true) []).reverse := by
  simp only [clean, h, if_true]
  rfl

/-- A clean absolute path is the root with plain elements. -/
theorem exists_clean_eq_rooted (h : isAbsolute p = true) :
    ∃ elements, (∀ e ∈ elements, Plain e) ∧ clean p = rooted elements := by
  refine ⟨_, ?_, clean_of_isAbsolute h⟩
  intro e he
  exact plain_foldl_pushElement (by simp) (fun _ => notMem_of_mem_splitOn) e (List.mem_reverse.1 he)

/-- The elements that are left of a clean absolute path are its own. -/
theorem foldl_splitOn_rooted (h : ∀ e ∈ elements, Plain e) :
    (splitOn slash (rooted elements)).foldl (pushElement true) [] = elements.reverse := by
  have hsplit : splitOn slash (rooted elements) = [] :: splitOn slash (Text.join [slash] elements) := by
    simp [rooted, splitOn]
  have hempty : pushElement true [] [] = [] := rfl
  rw [hsplit, List.foldl_cons, hempty]
  cases helements : elements with
  | nil => rfl
  | cons e rest =>
      rw [splitOn_join (by simp) fun part hpart => (h part (helements ▸ hpart)).whole, ← helements,
        foldl_pushElement_plain h, List.append_nil]

/-- Cleaning a second time changes nothing. -/
theorem clean_rooted (h : ∀ e ∈ elements, Plain e) : clean (rooted elements) = rooted elements := by
  rw [clean_of_isAbsolute (isAbsolute_rooted elements), foldl_splitOn_rooted h, List.reverse_reverse]

/-! ## Absolute forms -/

/-- Every path has a clean absolute form, seen from a directory that has one. -/
theorem exists_absolute_eq_rooted (hcwd : isAbsolute cwd = true) (p : Text) :
    ∃ elements, (∀ e ∈ elements, Plain e) ∧ absolute cwd p = rooted elements := by
  rw [absolute]
  split
  · next habsolute => exact exists_clean_eq_rooted habsolute
  · cases cwd with
    | nil => cases hcwd
    | cons c rest =>
        have hjoin : ∃ more, join [c :: rest, p] = clean (c :: more) := by
          cases p with
          | nil => exact ⟨rest, by simp [join, join_singleton]⟩
          | cons d p => exact ⟨rest ++ slash :: d :: p, by simp [join, Text.join]⟩
        obtain ⟨more, hmore⟩ := hjoin
        rw [hmore]
        exact exists_clean_eq_rooted hcwd

/-- An absolute path does not depend on the working directory. -/
theorem absolute_rooted (h : ∀ e ∈ elements, Plain e) :
    absolute cwd (rooted elements) = rooted elements := by
  rw [absolute, if_pos (isAbsolute_rooted elements), clean_rooted h]

/-- The absolute form of a path is its own absolute form. -/
theorem absolute_absolute (hcwd : isAbsolute cwd = true) (p : Text) :
    absolute cwd (absolute cwd p) = absolute cwd p := by
  obtain ⟨elements, hplain, heq⟩ := exists_absolute_eq_rooted hcwd p
  rw [heq, absolute_rooted hplain]

theorem absolute_ne_nil (hcwd : isAbsolute cwd = true) (p : Text) : absolute cwd p ≠ [] := by
  obtain ⟨elements, -, heq⟩ := exists_absolute_eq_rooted hcwd p
  rw [heq]
  exact rooted_ne_nil elements

/-- One more element. -/
theorem join_rooted (h : ∀ e ∈ elements, Plain e) (helement : Plain element) :
    join [rooted elements, element] = rooted (elements ++ [element]) := by
  have hjoin : join [rooted elements, element] = clean (rooted elements ++ slash :: element) := by
    simp [join, rooted_ne_nil, helement.nonempty, Text.join]
  have habsolute : isAbsolute (rooted elements ++ slash :: element) = true := rfl
  rw [hjoin, clean_of_isAbsolute habsolute, splitOn_append_cons, List.foldl_append,
    foldl_splitOn_rooted h, splitOn_of_notMem helement.whole, List.foldl_cons, List.foldl_nil,
    pushElement_plain helement, List.reverse_cons, List.reverse_reverse]

/-- An empty element changes nothing. -/
theorem join_rooted_nil (h : ∀ e ∈ elements, Plain e) :
    join [rooted elements, []] = rooted elements := by
  have hjoin : join [rooted elements, []] = clean (rooted elements) := by
    simp [join, rooted_ne_nil, Text.join]
  rw [hjoin, clean_rooted h]

end Path

/-! ## Where a path leads -/

namespace FileTree

open TickScript.Path

variable {t : FileTree} {elements : List Text} {full : Text}

theorem descend_of_cons {current element : Text} {rest : List Text}
    (h : t.descend current (element :: rest) = .ok full) :
    t.descend (Path.join [current, element]) rest = .ok full := by
  rw [descend] at h
  split at h
  · cases h
  · split at h
    · cases h
    · split at h
      · cases h
      · exact h

/-- Descending by plain elements ends at the path that has them. -/
theorem descend_plain {above : List Text} (habove : ∀ e ∈ above, Plain e)
    (h : ∀ e ∈ elements, Plain e) (hfull : t.descend (rooted above) elements = .ok full) :
    full = rooted (above ++ elements) := by
  induction elements generalizing above with
  | nil =>
      obtain rfl := Except.ok.inj hfull
      rw [List.append_nil]
  | cons e elements ih =>
      have he : Plain e := h e List.mem_cons_self
      have hrest := descend_of_cons hfull
      rw [join_rooted habove he] at hrest
      have hstep : ∀ e' ∈ above ++ [e], Plain e' := by
        intro e' he'
        rcases List.mem_append.1 he' with he' | he'
        · exact habove e' he'
        · rwa [List.mem_singleton.1 he']
      rw [ih hstep (fun e' he' => h e' (List.mem_cons_of_mem _ he')) hrest]
      simp

/-- A clean absolute path leads to itself. -/
theorem locate_rooted (h : ∀ e ∈ elements, Plain e) (hfull : t.locate (rooted elements) = .ok full) :
    full = rooted elements := by
  have hsplit : Text.splitOn slash (rooted elements)
      = [] :: Text.splitOn slash (Text.join [slash] elements) := by
    simp [rooted, Text.splitOn]
  rw [locate] at hfull
  split at hfull
  · cases hfull
  · rw [if_pos (isAbsolute_rooted elements), hsplit] at hfull
    replace hfull := descend_of_cons hfull
    rw [show join [[slash], []] = rooted [] from rfl] at hfull
    cases elements with
    | nil =>
        -- the root itself splits into one more empty element
        have hempty : Text.splitOn slash (Text.join [slash] []) = [[]] := rfl
        rw [hempty] at hfull
        replace hfull := descend_of_cons hfull
        rw [join_rooted_nil (by simp)] at hfull
        exact (Except.ok.inj hfull).symm
    | cons e rest =>
        rw [Text.splitOn_join (by simp) fun part hpart => (h part hpart).whole] at hfull
        exact descend_plain (by simp) h hfull

/-! ## Writing -/

theorem isDirectory_set {path : Text} (h : t.isDirectory path = true) (file content : Text) :
    isDirectory { t with files := t.files.set file content } path = true := by
  simp only [isDirectory, Bool.or_eq_true] at h ⊢
  exact h.imp id fun hbelow => Table.any_set hbelow file content

/-- Writing a file blocks no way that leads through directories. -/
theorem descend_set {file content current : Text} (hfile : t.isDirectory file = false)
    (h : t.descend current elements = .ok full) :
    descend { t with files := t.files.set file content } current elements = .ok full := by
  induction elements generalizing current with
  | nil => exact h
  | cons element rest ih =>
      rw [descend] at h ⊢
      by_cases hhas : t.files.has current = true
      · simp [hhas] at h
      by_cases hdirectory : t.isDirectory current = true
      · have hother : current ≠ file := by
          rintro rfl
          exact absurd (hfile.symm.trans hdirectory) (by decide)
        have hhas' : Table.has (t.files.set file content) current = false := by
          rw [Table.has_eq_false_iff, Table.get?_set, if_neg hother, ← Table.has_eq_false_iff]
          exact Bool.not_eq_true _ ▸ hhas
        simp only [hhas, hdirectory, Bool.not_true, Bool.false_eq_true, if_false] at h
        simp only [hhas', isDirectory_set hdirectory, Bool.not_true, Bool.false_eq_true, if_false]
        split at h
        · cases h
        · next hlength =>
            rw [if_neg hlength]
            exact ih h
      · simp [hhas, hdirectory] at h

/-- A file is written where its path leads, and that is no directory. -/
theorem locate_of_locateFile {path : Text} (h : t.locateFile path = .ok full) :
    t.locate path = .ok full ∧ t.isDirectory full = false := by
  simp only [locateFile, bind, Except.bind, pure, Except.pure, throw, throwThe, MonadExceptOf.throw] at h
  split at h
  · split at h <;> cases h
  · cases hlocate : t.locate path with
    | error fault => simp [hlocate] at h
    | ok found =>
        simp only [hlocate] at h
        cases hdirectory : t.isDirectory found with
        | true => simp [hdirectory] at h
        | false =>
            obtain rfl : found = full := by simpa [hdirectory] using h
            exact ⟨rfl, hdirectory⟩

/-- What was written can be read. -/
theorem read_of_write {t' : FileTree} {path content : Text} (h : t.write path content = .ok t') :
    t'.read path = .ok content := by
  simp only [write] at h
  split at h
  · cases h
  next full hfull =>
  obtain rfl := Except.ok.inj h
  obtain ⟨hlocate, hfile⟩ := locate_of_locateFile hfull
  have hlocate' : locate { t with files := t.files.set full content } path = .ok full := by
    simp only [locate] at hlocate ⊢
    split at hlocate
    · cases hlocate
    · exact descend_set hfile hlocate
  simp only [read, node, hlocate', bind, Except.bind, Table.get?_set_self]

end FileTree

namespace FileStore

open TickScript.Path

/-- The paths of the files in a store. -/
def paths : FileStore → List Text
  | memory m => m.files.keys
  | tree t => t.files.keys

/-- Every file has one path. -/
theorem length_paths (store : FileStore) : store.paths.length = store.size := by
  cases store <;> simp [paths, size, Table.keys]

variable {store : FileStore} {history : List Text} {path content : Text}

/-- What can be read under its absolute path is one of the files. -/
theorem mem_paths_of_read (hcwd : isAbsolute store.cwd = true)
    (hread : store.read history (store.absolute path) = .ok content) :
    store.absolute path ∈ store.paths := by
  obtain ⟨elements, hplain, heq⟩ : ∃ elements, (∀ e ∈ elements, Plain e)
      ∧ store.absolute path = rooted elements := exists_absolute_eq_rooted hcwd path
  rw [heq] at hread ⊢
  cases store with
  | memory m =>
      simp only [read, absolute_rooted hplain] at hread
      split at hread
      · cases hread
      · next file hfile => exact Table.mem_keys_of_get? hfile
  | tree t =>
      have hnode : t.node (rooted elements) = .ok (.file content) := by
        simp only [read, FileTree.read] at hread
        cases hnode : t.node (rooted elements) with
        | error fault =>
            rw [hnode] at hread
            cases hread
        | ok node =>
            rw [hnode] at hread
            cases node with
            | directory => cases hread
            | file found =>
                obtain rfl : found = content := Except.ok.inj hread
                rfl
      simp only [FileTree.node, bind, Except.bind] at hnode
      split at hnode
      · cases hnode
      · next full hfull =>
          obtain rfl := FileTree.locate_rooted hplain hfull
          split at hnode
          · next found hfound => exact Table.mem_keys_of_get? hfound
          · split at hnode <;> cases hnode

end FileStore

end TickScript
