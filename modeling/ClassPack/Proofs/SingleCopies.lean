import ClassPack.Proofs.OwnTarget

/-!
# SingleCopies — a copy is made as a whole or not at all

* `copyFile_all_or_nothing` — whatever the two texts are like, a copy that fails has made
  directories above its target and no more, and one that goes well has also written one file, with
  what the source held;
* `copyFile_empties_detour` — unless that is the source itself. Whether it is can depend on the
  directories that the copy makes first.
-/

namespace ClassPack

open FileSystem

/-- Whatever the texts of a copy are like, and whatever links stand on their ways: a copy that fails
leaves all files and links as they were, and all that is new is directories on the way of the text
above its target. A copy that goes well leaves one file more, at the place where the target leads.
It holds what the file held to which the source leads, unless that is the place itself, and then it
is empty. A source that could be read held what was read there. -/
theorem copyFile_all_or_nothing (source target : String) (w : Workshop) :
    (∀ e w', copyFile source target w = .error e w' →
      (∃ fault, e = .copyFailed source target fault) ∧
        ∀ q, KeptOrMade (Utf8.encode target) w.files w'.files q) ∧
    ∀ w', copyFile source target w = .ok () w' →
      ∃ s t content, w.files.LeadsTo (Utf8.encode source) s ∧
        w.files.LeadsTo (Utf8.encode target) t ∧ w'.files.at? t = some (.file content) ∧
        (w.files.Starts (Utf8.encode target) → w'.files.read? (Utf8.encode target) = some content) ∧
        (if s = t then content = .plain [] else
          w.files.at? s = some (.file content) ∧
            ∀ held, w.files.read? (Utf8.encode source) = some held → content = held) ∧
        ∀ q, q ≠ t → KeptOrMade (Utf8.encode target) w.files w'.files q := by
  refine ⟨fun e w' failed => ⟨copyFile_error failed,
    (kept_of_copyFile_error failed).2⟩, fun w' done => ?_⟩
  obtain ⟨⟨_, _, s, t, content⟩, rfl, rfl, put⟩ := copyFile_put done
  refine ⟨s, t, content, put.toOrigin, put.toPlace, put.stands,
    fun starts => read?_eq_some_iff.2 ⟨t, put.target starts, put.stands⟩, ?_, put.kept⟩
  have held := put.content
  simp only at held
  split
  · rename_i own
    rwa [if_pos own] at held
  · rename_i other
    rw [if_neg other] at held
    refine ⟨held, fun before read => ?_⟩
    obtain ⟨s', arrives, there⟩ := read?_eq_some_iff.1 read
    obtain rfl := arrives.leads.unique put.toOrigin
    rw [held] at there
    cases there
    rfl

/-- A copy of a file to a place where nothing stands yet, nor any directory above it. -/
theorem copyFile_all_or_nothing_plain :
    ∃ w', copyFile "/pz/f.lua" "/out/../lib/g.lua" ⟨plainHome, [], []⟩ = .ok () w' ∧
      plainHome.Starts (Utf8.encode "/out/../lib/g.lua") ∧
      ∃ s t content, plainHome.LeadsTo (Utf8.encode "/pz/f.lua") s ∧
        plainHome.LeadsTo (Utf8.encode "/out/../lib/g.lua") t ∧
        w'.files.at? t = some (.file content) ∧ w'.files.read? (Utf8.encode "/out/../lib/g.lua") =
          some content ∧
        (if s = t then content = .plain [] else plainHome.at? s = some (.file content) ∧
          ∀ held, plainHome.read? (Utf8.encode "/pz/f.lua") = some held → content = held) ∧
        ∀ q, q ≠ t → KeptOrMade (Utf8.encode "/out/../lib/g.lua") plainHome w'.files q := by
  have copied : resultOf? (copyFile "/pz/f.lua" "/out/../lib/g.lua" ⟨plainHome, [], []⟩) =
      some () := by
    decide
  obtain ⟨w', done⟩ := resultOf?_eq_some copied
  have starts : plainHome.Starts (Utf8.encode "/out/../lib/g.lua") := by
    simp [Starts, show Path.origin (Utf8.encode "/out/../lib/g.lua") plainHome.workingDir =
      [] by decide]
  obtain ⟨s, t, content, source, target, file, read, rest⟩ :=
    (copyFile_all_or_nothing "/pz/f.lua" "/out/../lib/g.lua" ⟨plainHome, [], []⟩).2 w' done
  exact ⟨w', done, starts, s, t, content, source, target, file, read starts, rest⟩

/-- Texts that do not resolve to the same file before a copy can do so once the directories above
the target are made: the target steps up from one that was missing. The copy goes well, and the
file is empty. -/
theorem copyFile_empties_detour :
    let w : Workshop := ⟨plainHome, [], []⟩
    w.files.holds "/pz/f.lua" "f" = true ∧
      (∀ p, ¬ w.files.Arrives (Utf8.encode "/x/../pz/f.lua") p) ∧
      resultOf? (copyFile "/pz/f.lua" "/x/../pz/f.lua" w) = some () ∧
      (leftBy (copyFile "/pz/f.lua" "/x/../pz/f.lua" w)).files.holds "/x/../pz/f.lua" "" =
        true := by
  refine ⟨by decide, ?_, by decide, by decide⟩
  rintro p ⟨links, resolved⟩
  have missing : (plainHome.resolve (Utf8.encode "/x/../pz/f.lua")).toOption = none := by
    decide
  rw [resolved] at missing
  cases missing

end ClassPack
