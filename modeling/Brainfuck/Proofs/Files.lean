import Brainfuck.FileSystem

/-!
# Writing files

A file that is written is found under its path with what was written, and no other file changes.
Directories stay directories, so that every path that could be followed before leads to the same
place afterwards.

## Main definitions

* `FileTree.content?`: the content of a file
* `FileSystem.WrittenAt`: a file system in which one file was written

## Main results

* `FileTree.content?_get?_put_of_ne`: putting a file at a place changes no other place
* `FileSystem.parent_of_locate`: a path leads to a directory or to a name in one
* `FileSystem.writtenAt_of_write`: writing changes the file that is written alone
* `FileSystem.WrittenAt.readText_self`, `FileSystem.WrittenAt.readText_of_ne`: reading afterwards
-/

namespace Brainfuck

/-! ## Putting files into trees -/

namespace FileTree

/-- The content of a file; a directory has none. -/
def content? : FileTree → Option ByteArray
  | file content => some content
  | directory _ => none

theorem content?_eq_some_iff {tree : FileTree} {content : ByteArray} :
    tree.content? = some content ↔ tree = file content := by
  cases tree <;> simp [content?]

theorem content?_eq_none_iff {tree : FileTree} :
    tree.content? = none ↔ ∃ entries, tree = directory entries := by
  cases tree <;> simp [content?]

theorem lookup_enter_of_ne {name name' : String} (h : name' ≠ name) (tree : FileTree)
    (entries : List (String × FileTree)) :
    (enter name tree entries).lookup name' = entries.lookup name' := by
  have hne : (name' == name) = false := beq_false_of_ne h
  induction entries with
  | nil => simp [enter, List.lookup_cons, hne]
  | cons entry rest ih =>
    obtain ⟨key, old⟩ := entry
    unfold enter
    split
    next heq =>
      obtain rfl := eq_of_beq heq
      rw [List.lookup_cons, List.lookup_cons, hne]
    next => rw [List.lookup_cons, List.lookup_cons, ih]

theorem get?_append (front back : List String) (tree : FileTree) :
    tree.get? (front ++ back) = (tree.get? front).bind (get? back) := by
  induction front generalizing tree with
  | nil => rfl
  | cons name front ih =>
    cases tree with
    | file content => rfl
    | directory entries =>
      rw [List.cons_append, get?, get?, Option.bind_assoc]
      exact congrArg _ (funext ih)

/-- There is nothing below a file. -/
theorem get?_file {place : List String} (h : place ≠ []) (content : ByteArray) :
    (file content).get? place = none := by
  cases place with
  | nil => exact absurd rfl h
  | cons name rest => rfl

/-- Putting something into a directory gives one of its names a new meaning. -/
theorem put_cons (new : FileTree) (name : String) (rest : List String)
    (entries : List (String × FileTree)) :
    put new (name :: rest) (directory entries) =
      directory (enter name ((entries.lookup name).elim new (put new rest)) entries) := by
  rw [put]
  cases entries.lookup name <;> rfl

/-- **Putting a file into a directory** changes no other place, if it replaces no directory. -/
theorem content?_get?_put_of_ne {tree : FileTree} {place other : List String}
    {entries : List (String × FileTree)}
    (hparent : tree.get? place.dropLast = some (directory entries))
    (hplace : ∀ siblings, tree.get? place ≠ some (directory siblings)) (h : other ≠ place)
    (content : ByteArray) :
    ((put (file content) place tree).get? other).map content? =
      (tree.get? other).map content? := by
  -- Induction on the place of the file: the other place leaves its way somewhere, or is above it or
  -- below it.
  induction place generalizing tree other with
  | nil => exact absurd hparent (hplace entries)
  | cons name rest ih =>
    obtain ⟨siblings, rfl⟩ : ∃ siblings, tree = directory siblings := by
      cases tree with
      | directory siblings => exact ⟨siblings, rfl⟩
      | file old => cases rest <;> cases hparent
    rw [put_cons]
    cases other with
    | nil => rfl
    | cons name' other =>
      by_cases hname : name' = name
      · subst hname
        have hother : other ≠ rest := fun heq => h (congrArg _ heq)
        rw [get?, get?, lookup_enter, Option.bind_some]
        rw [get?] at hplace
        cases rest with
        | nil =>
          -- The file is put here, and there is nothing below it now or before.
          have hnone : (siblings.lookup name').bind (get? other) = none := by
            cases hl : siblings.lookup name' with
            | none => rfl
            | some child =>
              rw [hl] at hplace
              cases child with
              | file old => exact get?_file hother old
              | directory grandchildren => exact absurd rfl (hplace grandchildren)
          rw [hnone]
          cases siblings.lookup name' <;> exact congrArg _ (get?_file hother content)
        | cons next rest =>
          rw [List.dropLast_cons_cons, get?] at hparent
          cases hl : siblings.lookup name' with
          | none =>
            rw [hl] at hparent
            cases hparent
          | some child =>
            rw [hl] at hparent hplace
            exact ih hparent hplace hother
      · -- The two places part here.
        rw [get?, get?, lookup_enter_of_ne hname]

/-- What holds a directory is a directory. -/
theorem exists_directory_dropLast {tree : FileTree} {place : List String}
    {entries : List (String × FileTree)} (h : tree.get? place = some (directory entries)) :
    ∃ entries', tree.get? place.dropLast = some (directory entries') := by
  rcases List.eq_nil_or_concat place with rfl | ⟨front, name, rfl⟩
  · exact ⟨entries, h⟩
  · rw [List.concat_eq_append, get?_append] at h
    rw [List.concat_eq_append, List.dropLast_concat]
    cases hfront : tree.get? front with
    | none =>
      rw [hfront] at h
      cases h
    | some parent =>
      cases parent with
      | directory entries' => exact ⟨entries', rfl⟩
      | file content =>
        rw [hfront] at h
        cases h

end FileTree

/-! ## Following paths -/

namespace Path

/-- A path that does not end in a slash has a name in it. -/
theorem exists_mem_split {cs : List Char} (hne : cs ≠ []) (h : cs.getLast? ≠ some '/') :
    ∃ part ∈ split cs, part ≠ [] := by
  induction cs with
  | nil => exact absurd rfl hne
  | cons c cs ih =>
    rw [split]
    by_cases hc : c = '/'
    · subst hc
      rw [if_pos rfl]
      cases cs with
      | nil => exact absurd rfl h
      | cons c' cs =>
        rw [List.getLast?_cons_cons] at h
        obtain ⟨part, hmem, hpart⟩ := ih (List.cons_ne_nil _ _) h
        exact ⟨part, List.mem_cons_of_mem _ hmem, hpart⟩
    · rw [if_neg hc]
      cases split cs with
      | nil => exact ⟨[c], List.mem_singleton_self _, List.cons_ne_nil _ _⟩
      | cons part parts => exact ⟨c :: part, List.mem_cons_self, List.cons_ne_nil _ _⟩

theorem names_ne_nil {path : String} (hne : path ≠ "") (h : endsInSlash path = false) :
    names path ≠ [] := by
  have hlast : path.toList.getLast? ≠ some '/' := by
    intro hlast
    rw [endsInSlash, hlast] at h
    cases h
  obtain ⟨part, hmem, hpart⟩ := exists_mem_split (mt String.toList_eq_nil_iff.mp hne) hlast
  have hfilter : part ∈ (split path.toList).filter (· ≠ []) :=
    List.mem_filter.mpr ⟨hmem, decide_eq_true hpart⟩
  exact List.ne_nil_of_mem (List.mem_map_of_mem hfilter)

end Path

namespace FileTree

variable {root root' : FileTree} {here there place : List String} {name : String}
  {names : List String}

/-- A name is followed from a directory: to the directory itself, to the one that holds it, or to
the name in it. -/
theorem cases_of_follow (h : root.follow here name = .ok there) :
    (∃ entries, root.get? here = some (directory entries)) ∧
      (there = here ∨ there = here.dropLast ∨ there = here ++ [name]) := by
  unfold follow at h
  split at h
  · cases h
  · cases h
  next entries hhere =>
    refine ⟨⟨entries, hhere⟩, ?_⟩
    split at h
    · exact .inl (Except.ok.inj h).symm
    split at h
    · exact .inr (.inl (Except.ok.inj h).symm)
    split at h
    · cases h
    · exact .inr (.inr (Except.ok.inj h).symm)

/-- Where a name leads is in a directory. -/
theorem parent_of_follow (h : root.follow here name = .ok there) :
    ∃ entries, root.get? there.dropLast = some (directory entries) := by
  obtain ⟨⟨entries, hhere⟩, hthere⟩ := cases_of_follow h
  obtain ⟨entries', hparent⟩ := exists_directory_dropLast hhere
  rcases hthere with rfl | rfl | rfl
  · exact ⟨entries', hparent⟩
  · exact exists_directory_dropLast hparent
  · rw [List.dropLast_concat]
    exact ⟨entries, hhere⟩

theorem foldlM_follow_cons (h : (name :: names).foldlM root.follow here = .ok place) :
    ∃ there, root.follow here name = .ok there ∧ names.foldlM root.follow there = .ok place := by
  rw [List.foldlM_cons] at h
  cases hthere : root.follow here name with
  | error cause =>
    rw [hthere] at h
    cases h
  | ok there =>
    rw [hthere] at h
    exact ⟨there, rfl, h⟩

/-- Where a row of names leads is in a directory. -/
theorem parent_of_foldlM_follow (hne : names ≠ [])
    (h : names.foldlM root.follow here = .ok place) :
    ∃ entries, root.get? place.dropLast = some (directory entries) := by
  induction names generalizing here with
  | nil => exact absurd rfl hne
  | cons name names ih =>
    obtain ⟨there, hfollow, hrest⟩ := foldlM_follow_cons h
    cases names with
    | nil =>
      obtain rfl := Except.ok.inj hrest
      exact parent_of_follow hfollow
    | cons next names => exact ih (List.cons_ne_nil _ _) hrest

/-- Directories of one tree are directories of another. -/
def KeepsDirectories (root root' : FileTree) : Prop :=
  ∀ place entries, root.get? place = some (directory entries) →
    ∃ entries', root'.get? place = some (directory entries')

theorem KeepsDirectories.follow (hkeeps : KeepsDirectories root root')
    (h : root.follow here name = .ok there) : root'.follow here name = .ok there := by
  obtain ⟨⟨entries, hhere⟩, -⟩ := cases_of_follow h
  obtain ⟨entries', hhere'⟩ := hkeeps here entries hhere
  rw [FileTree.follow, hhere] at h
  rw [FileTree.follow, hhere']
  exact h

/-- **Names that could be followed** lead to the same place where directories are kept. -/
theorem KeepsDirectories.foldlM_follow (hkeeps : KeepsDirectories root root')
    (h : names.foldlM root.follow here = .ok place) :
    names.foldlM root'.follow here = .ok place := by
  induction names generalizing here with
  | nil => exact h
  | cons name names ih =>
    obtain ⟨there, hfollow, hrest⟩ := foldlM_follow_cons h
    rw [List.foldlM_cons, hkeeps.follow hfollow]
    exact ih hrest

end FileTree

/-! ## Writing files -/

namespace FileSystem

variable {fs fs' : FileSystem} {path path' : String} {content : ByteArray} {place : List String}

/-- **One file was written**: it has its new content, and no other place has changed but for the
names in its directory. Every path that could be followed leads to the same place. -/
structure WrittenAt (fs : FileSystem) (path : String) (content : ByteArray) (fs' : FileSystem) :
    Prop where
  workplace : fs'.workplace = fs.workplace
  self : fs'.read path = .ok content
  others : ∀ place, fs.locate path ≠ .ok place →
    (fs'.root.get? place).map FileTree.content? = (fs.root.get? place).map FileTree.content?
  locate : ∀ path' place, fs.locate path' = .ok place → fs'.locate path' = .ok place

/-- A file can be written where there is no directory. -/
structure Writable (fs : FileSystem) (path : String) (place : List String) : Prop where
  locate : fs.locate path = .ok place
  not_directory : ∀ siblings, fs.root.get? place ≠ some (.directory siblings)
  not_endsInSlash : Path.endsInSlash path = false

theorem writable_of_write (h : fs.write path content = .ok fs') :
    ∃ place, fs.Writable path place ∧
      fs' = { fs with root := FileTree.put (.file content) place fs.root } := by
  unfold write at h
  cases hl : fs.locate path with
  | error cause =>
    rw [hl] at h
    cases h
  | ok place =>
    rw [hl] at h
    dsimp only [bind, Except.bind] at h
    split at h
    · cases h
    next hne =>
      split at h
      · cases h
      next hs =>
        exact ⟨place, ⟨hl, fun siblings => hne siblings, Bool.eq_false_iff.mpr hs⟩,
          (Except.ok.inj h).symm⟩

/-- **Whether a file can be written** does not depend on what is written. -/
theorem Writable.write (h : fs.Writable path place) (content : ByteArray) :
    fs.write path content =
      .ok { fs with root := FileTree.put (.file content) place fs.root } := by
  unfold FileSystem.write
  rw [h.locate]
  dsimp only [bind, Except.bind]
  split
  next siblings hd => exact absurd hd (h.not_directory siblings)
  next => rw [h.not_endsInSlash]; rfl

theorem parent_of_locate (h : fs.locate path = .ok place) (hs : Path.endsInSlash path = false) :
    ∃ entries, fs.root.get? place.dropLast = some (.directory entries) := by
  unfold locate at h
  split at h
  · cases h
  next hne =>
    split at h
    · cases h
    · exact FileTree.parent_of_foldlM_follow (Path.names_ne_nil hne hs) h

theorem locate_of_keepsDirectories (hworkplace : fs'.workplace = fs.workplace)
    (hkeeps : fs.root.KeepsDirectories fs'.root) (h : fs.locate path = .ok place) :
    fs'.locate path = .ok place := by
  unfold locate origin at h ⊢
  rw [hworkplace]
  split at h
  · cases h
  next hempty =>
    split at h
    · cases h
    next hlong =>
      rw [if_neg hempty, if_neg hlong]
      exact hkeeps.foldlM_follow h

/-- A file is read at the place that its path leads to. -/
theorem read_eq_ok_iff :
    fs.read path = .ok content ↔
      ∃ place, fs.locate path = .ok place ∧ fs.root.get? place = some (.file content) ∧
        Path.endsInSlash path = false := by
  unfold read
  cases hl : fs.locate path with
  | error cause => simp [bind, Except.bind]
  | ok place =>
    dsimp only [bind, Except.bind]
    constructor
    · intro h
      split at h
      · cases h
      · cases h
      next content' hfile =>
        split at h
        · cases h
        next hs =>
          obtain rfl := Except.ok.inj h
          exact ⟨place, rfl, hfile, Bool.eq_false_iff.mpr hs⟩
    · rintro ⟨_, hplace, hfile, hs⟩
      obtain rfl := Except.ok.inj hplace
      rw [hfile]
      dsimp only
      rw [hs]
      rfl

/-- **Writing changes the file that is written alone.** -/
theorem writtenAt_of_write (h : fs.write path content = .ok fs') :
    fs.WrittenAt path content fs' := by
  obtain ⟨place, hw, hfs'⟩ := writable_of_write h
  have hroot : fs'.root = FileTree.put (.file content) place fs.root := by rw [hfs']
  have hworkplace : fs'.workplace = fs.workplace := by rw [hfs']
  obtain ⟨entries, hparent⟩ := parent_of_locate hw.locate hw.not_endsInSlash
  have hothers (other : List String) (hne : other ≠ place) :
      (fs'.root.get? other).map FileTree.content? =
        (fs.root.get? other).map FileTree.content? := by
    rw [hroot]
    exact FileTree.content?_get?_put_of_ne hparent hw.not_directory hne content
  -- No directory is replaced, so that paths lead where they did.
  have hkeeps : fs.root.KeepsDirectories fs'.root := by
    intro here siblings hhere
    have hsame := hothers here fun heq => hw.not_directory siblings (heq ▸ hhere)
    rw [hhere, Option.map_some, FileTree.content?] at hsame
    obtain ⟨tree, htree, hnone⟩ := Option.map_eq_some_iff.mp hsame
    obtain ⟨siblings', rfl⟩ := FileTree.content?_eq_none_iff.mp hnone
    exact ⟨siblings', htree⟩
  have hlocate (path' : String) (place' : List String) (hl : fs.locate path' = .ok place') :
      fs'.locate path' = .ok place' :=
    locate_of_keepsDirectories hworkplace hkeeps hl
  refine ⟨hworkplace, ?_, fun other hne => ?_, hlocate⟩
  · refine read_eq_ok_iff.mpr ⟨place, hlocate path place hw.locate, ?_, hw.not_endsInSlash⟩
    rw [hroot, FileTree.get?_put hparent]
  · exact hothers other fun heq => hne (heq ▸ hw.locate)

theorem readText_of_read {text : String} (h : fs.read path = .ok text.toUTF8) :
    fs.readText path = .ok text := by
  have htext : String.fromUTF8? text.toUTF8 = some text := dif_pos text.isValidUTF8
  rw [readText, h]
  unfold Except.bind decode
  dsimp only
  rw [htext]

namespace WrittenAt

/-- A text that was written is read again. -/
theorem readText_self {text : String} (h : fs.WrittenAt path text.toUTF8 fs') :
    fs'.readText path = .ok text :=
  readText_of_read h.self

/-- **Any other text is read as before.** -/
theorem readText_of_ne {text : String} (h : fs.WrittenAt path content fs')
    (ht : fs.readText path' = .ok text) (hne : fs.locate path' ≠ fs.locate path) :
    fs'.readText path' = .ok text := by
  unfold readText at ht ⊢
  cases hread : fs.read path' with
  | error cause =>
    rw [hread] at ht
    cases ht
  | ok content' =>
    obtain ⟨place, hl, hfile, hs⟩ := read_eq_ok_iff.mp hread
    have hsame := h.others place fun heq => hne (hl.trans heq.symm)
    rw [hfile, Option.map_some, FileTree.content?] at hsame
    obtain ⟨tree, htree, hcontent⟩ := Option.map_eq_some_iff.mp hsame
    obtain rfl := FileTree.content?_eq_some_iff.mp hcontent
    have hread' := read_eq_ok_iff.mpr ⟨place, h.locate path' place hl, htree, hs⟩
    rw [hread] at ht
    rw [hread']
    exact ht

end WrittenAt

end FileSystem

end Brainfuck
