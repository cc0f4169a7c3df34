/-!
# Trees of files

Files and directories form a tree. A place in a tree is given by the names on the way to it from the
root.

## Main definitions

* `FileTree`: a file or a directory
* `FileTree.get?`: what is at a place
* `FileTree.put`: putting something at a place

## Main results

* `FileTree.lookup_enter`: an entry is found under the name it was given
* `FileTree.get?_put`: what was put at a place in a directory is found there
-/

namespace Brainfuck

/-- A file with its content, or a directory with its entries. -/
inductive FileTree
  | file (content : ByteArray)
  | directory (entries : List (String × FileTree))

namespace FileTree

/-- What is at a place. -/
def get? : List String → FileTree → Option FileTree
  | [], tree => some tree
  | _ :: _, file _ => none
  | name :: rest, directory entries => (entries.lookup name).bind (get? rest)

/-- Give a name in a directory a new meaning, or add the name at the end. -/
def enter (name : String) (tree : FileTree) :
    List (String × FileTree) → List (String × FileTree)
  | [] => [(name, tree)]
  | (key, old) :: rest =>
    if name == key then (key, tree) :: rest else (key, old) :: enter name tree rest

/-- Put a file or a directory at a place in an existing directory. -/
def put (new : FileTree) : List String → FileTree → FileTree
  | [], _ => new
  | _ :: _, file old => file old
  | name :: rest, directory entries =>
    match entries.lookup name with
    | some tree => directory (enter name (put new rest tree) entries)
    | none => directory (enter name new entries)

theorem lookup_enter (name : String) (tree : FileTree) (entries : List (String × FileTree)) :
    (enter name tree entries).lookup name = some tree := by
  induction entries with
  | nil => simp [enter]
  | cons entry rest ih =>
    obtain ⟨key, old⟩ := entry
    unfold enter
    split
    next h => simp [List.lookup_cons, h]
    next h => simpa [List.lookup_cons, h] using ih

theorem get?_put {new tree : FileTree} {place : List String} {entries : List (String × FileTree)}
    (h : tree.get? place.dropLast = some (directory entries)) :
    (put new place tree).get? place = some new := by
  induction place generalizing tree with
  | nil => rfl
  | cons name rest ih =>
    cases rest with
    | nil =>
      obtain rfl := Option.some.inj h
      unfold put
      split <;> simp [get?, lookup_enter, put]
    | cons next rest =>
      cases tree with
      | file content => cases h
      | directory siblings =>
        rw [List.dropLast_cons_cons] at h
        unfold get? at h
        cases hl : siblings.lookup name with
        | none => rw [hl] at h; cases h
        | some tree =>
          rw [hl] at h
          unfold put
          rw [hl]
          simp only [get?, lookup_enter, Option.bind_some]
          exact ih h

end FileTree

end Brainfuck
