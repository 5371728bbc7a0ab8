import IspStream.Files.Tree
import Mathlib.Logic.Relation

/-!
# Saving a file

Saving a file first makes the directories on the way to it, as far as nothing is there,
and then puts the content at the place that the path leads to.  No other file changes.
The way along the path only goes through directories, none of which is the place
itself, so that the path still leads there afterwards.  `saved_of_save` and
`Saved.read_eq` put this together.

Whether the content can be put there is settled before anything is put anywhere.  So when
saving fails, all that is new are directories that the path is within (`grown_of_save`).
-/

namespace IspStream.Files

/-- The path is within the directory, at some depth. -/
def Within (path directory : String) : Prop :=
  Relation.TransGen (fun inner outer => Path.parent? inner = some outer) path directory

theorem within_of_parent {path above directory : String} (h : Path.parent? path = some above)
    (hdirectory : directory = above ∨ Within above directory) : Within path directory := by
  rcases hdirectory with rfl | hwithin
  · exact .single h
  · exact .head h hwithin

namespace Tree

variable {tree after : Tree} {place start final : Place} {names : List String} {path : String}
  {content : ByteArray} {entry : Entry} {made wider : String → Prop}

/-! ## Following a path -/

/-- A step only leaves a directory. -/
theorem get?_of_step {name : String} (h : tree.step start name = .ok final) :
    tree.get? start = some .directory := by
  unfold step at h
  split at h
  · cases h
  · cases h
  · assumption

/-- A way through a tree is one through every tree that still has its directories. -/
theorem follow_of_directories
    (hdirectories : ∀ place, tree.get? place = some .directory → after.get? place = some .directory)
    (h : tree.follow start names = .ok final) : after.follow start names = .ok final := by
  induction names generalizing start with
  | nil => exact h
  | cons name rest ih =>
      unfold follow at h ⊢
      cases hstep : tree.step start name with
      | error fault =>
          rw [hstep] at h
          cases h
      | ok next =>
          rw [hstep] at h
          have hstart := get?_of_step hstep
          rw [show after.step start name = .ok next by
            rw [← hstep, step, step, hstart, hdirectories start hstart]]
          exact ih h

theorem locate_of_directories (hhere : after.here = tree.here)
    (hdirectories : ∀ place, tree.get? place = some .directory → after.get? place = some .directory)
    (h : tree.locate path = .ok place) : after.locate path = .ok place := by
  unfold locate at h ⊢
  split at h
  · cases h
  · rw [origin, hhere, ← origin]
    exact follow_of_directories hdirectories h

/-- A change at a place that is no directory leaves the directories alone. -/
theorem directory_insert (hplace : tree.get? place ≠ some .directory) (other : Place)
    (h : tree.get? other = some .directory) :
    (tree.insert place entry).get? other = some .directory := by
  have hne : other ≠ place := by
    rintro rfl
    exact hplace h
  rw [get?_insert, if_neg hne, h]
  exact ite_self _

theorem follow_append (tree : Tree) (start : Place) (first second : List String) :
    tree.follow start (first ++ second) =
      (tree.follow start first).bind fun middle => tree.follow middle second := by
  induction first generalizing start with
  | nil => rfl
  | cons name rest ih =>
      rw [List.cons_append, follow, follow]
      cases tree.step start name with
      | error fault => rfl
      | ok next => exact ih next

theorem follow_self (h : tree.get? place = some .directory) : tree.follow place [self] = .ok place := by
  rw [follow, step, h]
  rfl

theorem components_of_ending {directories : List String} {name : String}
    (h : ending path = .named directories name) :
    Path.components path = directories ++ [name] := by
  unfold ending at h
  simp only at h
  split at h
  · cases h
  · rename_i hlast
    split at h
    · cases h
    · cases h
      obtain ⟨front, hfront⟩ := List.getLast?_eq_some_iff.mp hlast
      rw [hfront, List.dropLast_concat]

/-! ## Making directories -/

/-- Two trees have the same files with the same content. -/
def SameFiles (tree after : Tree) : Prop :=
  ∀ place content, after.get? place = some (.file content) ↔ tree.get? place = some (.file content)

/-- All that is new in a tree are directories, where nothing was before, and each of them is
one that was to be made. -/
structure Grown (tree : Tree) (made : String → Prop) (after : Tree) : Prop where
  here_eq : after.here = tree.here
  get?_eq_or : ∀ place, after.get? place = tree.get? place ∨
    tree.get? place = none ∧ after.get? place = some .directory ∧
      ∃ directory, made directory ∧ after.locate directory = .ok place

theorem Grown.refl (tree : Tree) (made : String → Prop) : tree.Grown made tree :=
  ⟨rfl, fun _ => Or.inl rfl⟩

theorem Grown.directories (h : tree.Grown made after) (place : Place)
    (hplace : tree.get? place = some .directory) : after.get? place = some .directory := by
  rcases h.get?_eq_or place with hsame | ⟨-, hnew, -⟩
  · rw [hsame, hplace]
  · exact hnew

theorem Grown.mono (h : tree.Grown made after) (hwider : ∀ path, made path → wider path) :
    tree.Grown wider after := by
  refine ⟨h.here_eq, fun place => (h.get?_eq_or place).imp_right ?_⟩
  rintro ⟨hnone, hnew, directory, hmade, hlocate⟩
  exact ⟨hnone, hnew, directory, hwider directory hmade, hlocate⟩

theorem Grown.trans {middle : Tree} (first : tree.Grown made middle)
    (second : middle.Grown made after) : tree.Grown made after := by
  refine ⟨second.here_eq.trans first.here_eq, fun place => ?_⟩
  rcases second.get?_eq_or place with hsame | ⟨hnone, hnew, hmade⟩
  · rcases first.get?_eq_or place with hbefore | ⟨hnone, hnew, directory, hmade, hlocate⟩
    · exact Or.inl (hsame.trans hbefore)
    · exact Or.inr ⟨hnone, hsame.trans hnew, directory, hmade,
        locate_of_directories second.here_eq second.directories hlocate⟩
  · rcases first.get?_eq_or place with hbefore | ⟨-, hdirectory, -⟩
    · exact Or.inr ⟨hbefore ▸ hnone, hnew, hmade⟩
    · rw [hdirectory] at hnone
      cases hnone

theorem Grown.sameFiles (h : tree.Grown made after) : tree.SameFiles after := by
  intro place content
  rcases h.get?_eq_or place with hsame | ⟨hnone, hnew, -⟩
  · rw [hsame]
  · simp [hnone, hnew]

/-- A directory is only made where nothing is. -/
theorem grown_makeDirectory (h : tree.makeDirectory path = .ok after) :
    tree.Grown (· = path) after := by
  unfold makeDirectory at h
  split at h
  · cases h
  · rename_i hfault
    split at h
    · split at h <;> cases h
    · rename_i directories name hending
      split at h
      · cases h
      · rename_i place hfollow
        split at h
        · cases h
        · rename_i hnone
          cases h
          have hplace : tree.get? place ≠ some .directory := by simp [hnone]
          have hroot : place ≠ [] := by
            rintro rfl
            exact hplace rfl
          have hnew : (tree.insert place .directory).get? place = some .directory := by
            rw [get?_insert, if_neg hroot, if_pos rfl]
          refine ⟨rfl, fun other => ?_⟩
          by_cases hother : other = place
          · subst hother
            refine Or.inr ⟨hnone, hnew, path, rfl, ?_⟩
            rw [locate, hfault]
            simp only [components_of_ending hending]
            rw [follow_append, show (tree.insert other .directory).origin path = tree.origin path
              from rfl, follow_of_directories (directory_insert hplace) hfollow]
            change (tree.insert other .directory).follow other _ = _
            split
            · exact follow_self hnew
            · rfl
          · left
            rw [get?_insert, if_neg hother]
            split
            · rename_i hempty
              rw [get?, if_pos hempty]
            · rfl

theorem grown_makeDirectories (tree : Tree) (path : String) :
    tree.Grown (fun directory => directory = path ∨ Within path directory)
      (tree.makeDirectories path).1 := by
  -- what is made for the directory above is made on the way to the path
  have hwiden : ∀ {above : String}, Path.parent? path = some above → ∀ directory,
      directory = above ∨ Within above directory → directory = path ∨ Within path directory :=
    fun hparent _ hdirectory => Or.inr (within_of_parent hparent hdirectory)
  fun_induction makeDirectories tree path with
  | case1 => exact .refl _ _
  | case2 tree _ made hmade => exact (grown_makeDirectory hmade).mono fun _ => Or.inl
  | case3 => exact .refl _ _
  | case4 tree _ _ above hparent _ made fault habove ih =>
      rw [habove] at ih
      exact (ih fun h _ hd => Or.inr (within_of_parent h hd)).mono (hwiden hparent)
  | case5 tree _ _ above hparent _ middle habove made hmade ih =>
      rw [habove] at ih
      exact ((ih fun h _ hd => Or.inr (within_of_parent h hd)).mono (hwiden hparent)).trans
        ((grown_makeDirectory hmade).mono fun _ => Or.inl)
  | case6 tree _ _ above hparent _ made habove fault _ ih =>
      rw [habove] at ih
      exact (ih fun h _ hd => Or.inr (within_of_parent h hd)).mono (hwiden hparent)
  | case7 => exact .refl _ _

theorem grown_makeParent (tree : Tree) (path : String) :
    tree.Grown (Within path) (tree.makeParent path).1 := by
  unfold makeParent
  split
  · exact .refl tree _
  · rename_i above hparent
    exact (grown_makeDirectories tree above).mono fun _ => within_of_parent hparent

/-! ## Writing -/

/-- A file is only written at a place that its path leads to and that is no directory. -/
theorem eq_insert_of_write (h : tree.write path content = .ok after) :
    ∃ place, tree.locate path = .ok place ∧ tree.get? place ≠ some .directory ∧
      after = tree.insert place (.file content) := by
  unfold write at h
  split at h
  · cases h
  · rename_i hfault
    split at h
    · split at h <;> cases h
    · rename_i directories name hending
      split at h
      · split at h <;> cases h
      · rename_i hslash
        split at h
        · cases h
        · rename_i place hplace
          split at h
          · cases h
          · rename_i hentry
            cases h
            refine ⟨place, ?_, hentry, rfl⟩
            rw [locate, hfault]
            simp only [if_neg hslash, List.append_nil, components_of_ending hending, hplace]

/-- Saving that fails has made directories at most. -/
theorem grown_of_save {fault : Fault} (h : tree.save path content = (after, .error fault)) :
    tree.Grown (Within path) after := by
  have hparent := grown_makeParent tree path
  unfold save at h
  split at h
  · rename_i hmade
    cases h
    rwa [hmade] at hparent
  · rename_i made hmade
    rw [hmade] at hparent
    split at h
    · cases h
    · cases h
      exact hparent

/-- A file was saved: its path leads to a place with its content, and no other file has
changed. -/
structure Saved (tree : Tree) (path : String) (content : ByteArray) (after : Tree)
    (place : Place) : Prop where
  locate_eq : after.locate path = .ok place
  holds : after.get? place = some (.file content)
  others : ∀ other ≠ place, ∀ old,
    after.get? other = some (.file old) ↔ tree.get? other = some (.file old)

theorem saved_of_save (h : tree.save path content = (after, .ok ())) :
    ∃ place, tree.Saved path content after place := by
  have hparent := (grown_makeParent tree path).sameFiles
  unfold save at h
  split at h
  · cases h
  · rename_i made hmade
    rw [hmade] at hparent
    split at h
    · rename_i written hwritten
      cases h
      obtain ⟨place, hplace, hentry, rfl⟩ := eq_insert_of_write hwritten
      have hroot : place ≠ [] := by
        rintro rfl
        exact hentry rfl
      have hhere : (made.insert place (.file content)).here = made.here := rfl
      refine ⟨place, locate_of_directories hhere (directory_insert hentry) hplace, ?_, ?_⟩
      · rw [get?_insert, if_neg hroot, if_pos rfl]
      · intro other hother old
        rw [← hparent other old, get?_insert, if_neg hother]
        by_cases hother : other = []
        · rw [if_pos hother, get?, if_pos hother]
        · rw [if_neg hother]
    · cases h

/-- Reading gives back a saved text. -/
theorem Saved.read_eq {text : String} (h : tree.Saved path text.toUTF8 after place) :
    after.read path = .ok text := by
  have htext : String.fromUTF8? text.toUTF8 = some text := dif_pos text.isValidUTF8
  rw [read, h.locate_eq]
  simp only [h.holds, htext]

end Tree

end IspStream.Files
