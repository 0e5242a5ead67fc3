import ClassPack.Proofs.Accepted
import ClassPack.Proofs.FileSystem.Planting

/-!
# OutputPaths — where the paths of the output lie, component by component

Nothing here looks at a file system: the checks are made on texts, and so is what follows from them.

* `Path.components_eq` — the components of a text are what stands at its front and what its
  pieces count for;
* `Path.components_join` — a relative text adds what its pieces count for to the components
  it is read from;
* `checkRelative_eq_ok_iff` — which texts are accepted, told by their pieces alone;
* `output_paths_below` — so no accepted text leads out of where it is read from, nor does any path
  of the output.
-/

namespace ClassPack
namespace Path

variable {p q : Path} {piece : Bytes}

/-! ## Components and pieces -/

/-- What the pieces of a text count for, wherever they stand. -/
def counted (p : Path) : List Component := (pieces p).filterMap Component.ofPiece?

/-- What the front of a text adds to that: the root, or a dot that counts only there. -/
def front (p : Path) : List Component :=
  if isAbsolute p then [.root] else if (pieces p).head? = some [dot] then [.here] else []

theorem ofPiece?_eq_some_iff {c : Component} :
    Component.ofPiece? piece = some c ↔
      piece ≠ [] ∧ piece ≠ [dot] ∧ c = if piece = [dot, dot] then .up else .name piece := by
  unfold Component.ofPiece?
  by_cases silent : piece = [] ∨ piece = [dot]
  · rw [if_pos silent]
    rcases silent with rfl | rfl <;> simp
  · rw [if_neg silent]
    simp only [not_or] at silent
    split <;> simp [silent, eq_comm]

/-- The components of a text are what stands at its front and what its pieces count for. -/
theorem components_eq (p : Path) : components p = front p ++ counted p := by
  have dots : Component.ofPiece? [dot] = none := by decide
  cases p with
  | nil => rfl
  | cons b rest =>
      obtain ⟨second, more, split⟩ := List.exists_cons_of_ne_nil (pieces_ne_nil rest)
      by_cases root : b = slash
      · -- The empty piece in front of the first slash counts for the root.
        subst root
        simp [components, front, counted, isAbsolute, pieces, split, Component.ofPiece?]
      · by_cases single : b :: second = [dot]
        · simp [components, front, counted, isAbsolute, pieces, root, split, single, dots]
        · cases counts : Component.ofPiece? (b :: second) <;>
            simp [components, front, counted, isAbsolute, pieces, root, split, single, counts]

/-! ## Joining -/

theorem counted_append_slash (p q : Path) : counted (p ++ slash :: q) = counted p ++ counted q := by
  simp [counted, pieces_append_slash]

/-- Behind a slash, no text changes what stands at the front. -/
theorem front_append_slash (p q : Path) : front (p ++ slash :: q) = front (p ++ [slash]) := by
  have heads : ∀ text, (pieces (p ++ slash :: text)).head? = (pieces p).head? := fun text => by
    rw [pieces_append_slash, List.head?_append_of_ne_nil _ (pieces_ne_nil p)]
  have starts : isAbsolute (p ++ slash :: q) = isAbsolute (p ++ [slash]) := by
    cases p <;> simp [isAbsolute]
  simp only [front, starts, heads]

/-- A slash at the end of a text that is not empty counts for nothing. -/
theorem components_append_final_slash (some_ : p ≠ []) :
    components (p ++ [slash]) = components p := by
  have starts : isAbsolute (p ++ [slash]) = isAbsolute p := by
    obtain ⟨b, rest, rfl⟩ := List.exists_cons_of_ne_nil some_
    simp [isAbsolute]
  have heads : (pieces (p ++ [slash])).head? = (pieces p).head? := by
    rw [pieces_append_slash, List.head?_append_of_ne_nil _ (pieces_ne_nil p)]
  have none_ : counted [] = [] := rfl
  rw [components_eq, components_eq, counted_append_slash, none_, List.append_nil, front, starts,
    heads, front]

/-- A relative text adds what its pieces count for to the components that it is read from. -/
theorem components_join (some_ : p ≠ []) (relative : isAbsolute q = false) :
    components (join p q) = components p ++ counted q := by
  have behind : ∀ text : Path, components (text ++ slash :: q) = components (text ++ [slash]) ++
      counted q := by
    intro text
    have none_ : counted [] = [] := rfl
    rw [components_eq, components_eq (text ++ [slash]), counted_append_slash, front_append_slash,
      counted_append_slash, none_, List.append_nil, List.append_assoc]
  unfold join
  rw [if_neg (by simp [relative])]
  by_cases slashed : endsInSlash p = true
  · -- The slash between the two is there already.
    obtain ⟨text, rfl⟩ := eq_append_slash_of_endsInSlash slashed
    rw [if_pos (.inr slashed), List.append_assoc]
    exact behind text
  · rw [if_neg (by simp [some_, slashed]), behind p, components_append_final_slash some_]

/-! ## Names only -/

/-- Unless there are two dots between slashes, pieces count for names only. -/
theorem counted_eq_names (noDots : [dot, dot] ∉ pieces p) :
    counted p = ((pieces p).filter fun piece => piece ≠ [] ∧ piece ≠ [dot]).map .name := by
  unfold counted
  rw [← List.filterMap_eq_map, List.filterMap_filter]
  refine List.filterMap_congr fun piece there => ?_
  have other : piece ≠ [dot, dot] := fun same => noDots (same ▸ there)
  by_cases empty : piece = []
  · simp [Component.ofPiece?, empty]
  · by_cases single : piece = [dot]
    · simp [Component.ofPiece?, single]
    · simp [Component.ofPiece?, empty, single, other]

theorem up_mem_components_iff : Component.up ∈ components p ↔ [dot, dot] ∈ pieces p := by
  refine ⟨fun there => ?_, up_mem_components⟩
  rw [components_eq, List.mem_append] at there
  rcases there with atFront | there
  · unfold front at atFront
    split at atFront
    · simp at atFront
    · split at atFront <;> simp at atFront
  · obtain ⟨piece, member, counts⟩ := List.mem_filterMap.1 there
    obtain ⟨_, _, same⟩ := ofPiece?_eq_some_iff.1 counts
    split at same
    · rename_i dots
      exact dots ▸ member
    · cases same

theorem root_mem_components_iff : Component.root ∈ components p ↔ isAbsolute p = true := by
  refine ⟨fun there => ?_, root_mem_components⟩
  rw [components_eq, List.mem_append] at there
  rcases there with atFront | there
  · by_contra relative
    rw [front, if_neg relative] at atFront
    split at atFront <;> simp at atFront
  · obtain ⟨piece, _, counts⟩ := List.mem_filterMap.1 there
    obtain ⟨_, _, same⟩ := ofPiece?_eq_some_iff.1 counts
    split at same <;> cases same

/-- Only the root and a step up are not downward. -/
theorem all_isDownward_iff :
    (components p).all (·.isDownward) = true ↔ isAbsolute p = false ∧ [dot, dot] ∉ pieces p := by
  rw [← Bool.not_eq_true, ← root_mem_components_iff, ← up_mem_components_iff, List.all_eq_true]
  constructor
  · intro downward
    exact ⟨fun root => absurd (downward _ root) (by decide), fun up => absurd (downward _ up)
      (by decide)⟩
  · rintro ⟨noRoot, noUp⟩ c there
    cases c with
    | root => exact absurd there noRoot
    | up => exact absurd there noUp
    | here => rfl
    | name bytes => rfl

/-- A piece that is neither empty nor made of one or two dots is a name among the components, and
nothing else is. -/
theorem any_isName_iff :
    (components p).any (·.isName) = true ↔
      ∃ piece ∈ pieces p, piece ≠ [] ∧ piece ≠ [dot] ∧ piece ≠ [dot, dot] := by
  rw [List.any_eq_true]
  constructor
  · rintro ⟨c, there, named⟩
    cases c with
    | name bytes =>
        obtain ⟨member, counts⟩ := mem_pieces_of_name_mem there
        exact ⟨bytes, member, counts⟩
    | root => cases named
    | here => cases named
    | up => cases named
  · rintro ⟨piece, there, some_, notDot, notDots⟩
    have counts : Component.ofPiece? piece = some (.name piece) :=
      ofPiece?_eq_some_iff.2 ⟨some_, notDot, by rw [if_neg notDots]⟩
    refine ⟨.name piece, ?_, rfl⟩
    rw [components_eq]
    exact List.mem_append_right _ (List.mem_filterMap.2 ⟨piece, there, counts⟩)

end Path

/-! ## Accepted texts -/

open ClassPack.Path

/-- Whether a text is accepted, told by its pieces: not blank, not from the root, without two dots
between slashes, and with some piece that is neither empty nor a dot. -/
theorem checkRelative_eq_ok_iff {path what : String} :
    checkRelative path what = .ok () ↔
      Blank.isBlank path = false ∧ isAbsolute (Utf8.encode path) = false ∧
        [dot, dot] ∉ pieces (Utf8.encode path) ∧ ∃ piece ∈ pieces (Utf8.encode path), piece ≠ [] ∧
        piece ≠ [dot] := by
  have accepted : checkRelative path what = .ok () ↔ isPlainlyBelow path = true := by
    unfold checkRelative
    split <;> simp_all
  rw [accepted, isPlainlyBelow, Bool.and_eq_true, Bool.and_eq_true, Bool.not_eq_true', componentsOf,
    all_isDownward_iff, any_isName_iff]
  constructor
  · rintro ⟨⟨filled, piece, there, some_, notDot, _⟩, relative, noDots⟩
    exact ⟨filled, relative, noDots, piece, there, some_, notDot⟩
  · rintro ⟨filled, relative, noDots, piece, there, some_, notDot⟩
    exact ⟨⟨filled, piece, there, some_, notDot, fun dots => noDots (dots ▸ there)⟩,
      relative, noDots⟩

/-- A path lies below a root, component by component: by one name or more. -/
def NamedBelow (root path : String) : Prop :=
  ∃ names : List Bytes, names ≠ [] ∧ componentsOf path = componentsOf root ++ names.map .name

variable {root path what version extension : String}

theorem encode_ne_nil (some_ : root ≠ "") : Utf8.encode root ≠ [] := fun none_ =>
  some_ (Utf8.encode_injective (none_.trans Utf8.encode_empty.symm))

/-- An accepted text leads below whatever it is read from. -/
theorem namedBelow_of_checkRelative (h : checkRelative path what = .ok ()) (some_ : root ≠ "") :
    NamedBelow root (joinText root path) := by
  obtain ⟨_, relative, noDots, piece, there, counts⟩ := checkRelative_eq_ok_iff.1 h
  refine ⟨(pieces (Utf8.encode path)).filter fun piece => piece ≠ [] ∧ piece ≠ [dot], ?_, ?_⟩
  · exact List.ne_nil_of_mem (List.mem_filter.2 ⟨there, by simpa using counts⟩)
  · rw [componentsOf, encode_joinText, components_join (encode_ne_nil some_) relative,
      counted_eq_names noDots, componentsOf]

/-- Below a root, a text that is a single name adds this name. -/
theorem componentsOf_joinText_of_single {bytes : Bytes} (single : componentsOf path = [.name bytes])
    (some_ : root ≠ "") : componentsOf (joinText root path) =
      componentsOf root ++ [.name bytes] := by
  have downward : (componentsOf path).all (·.isDownward) = true := by
    rw [single]
    rfl
  have relative : isAbsolute (Utf8.encode path) = false := (all_isDownward_iff.1 downward).1
  have pieces_ : counted (Utf8.encode path) = [.name bytes] := by
    have parts := components_eq (Utf8.encode path)
    rw [show components (Utf8.encode path) = [.name bytes] from single, front,
      if_neg (by simp [relative])] at parts
    -- A dot at the front would be the only component.
    split at parts
    · simp at parts
    · exact parts.symm
  rw [componentsOf, encode_joinText, components_join (encode_ne_nil some_) relative, pieces_,
    componentsOf]

theorem joinText_ne_empty (some_ : root ≠ "") : joinText root path ≠ "" := by
  intro none_
  have bytes : join (Utf8.encode root) (Utf8.encode path) = [] := by
    rw [← encode_joinText, none_, Utf8.encode_empty]
  unfold join at bytes
  split at bytes
  · rename_i absolute
    simp [bytes, isAbsolute] at absolute
  · split at bytes <;> simp [encode_ne_nil some_] at bytes

/-- The name of an archive is a single name, with whatever version and extension are accepted in
it. -/
theorem componentsOf_archiveFileName (hv : '/' ∉ version.toList) (he : '/' ∉ extension.toList) :
    componentsOf (archiveFileName version extension) =
      [.name (Utf8.encode (archiveFileName version extension))] := by
  have plain := slash_not_mem_archiveFileName hv he
  have notDot : Utf8.encode (archiveFileName version extension) ≠ [dot] :=
    archiveFileName_ne (by simp [dot])
  have notDots : Utf8.encode (archiveFileName version extension) ≠ [dot, dot] :=
    archiveFileName_ne (by simp [dot])
  have relative := (descends_of_slash_not_mem plain notDots).relative
  have counts : Component.ofPiece? (Utf8.encode (archiveFileName version extension)) =
      some (.name (Utf8.encode (archiveFileName version extension))) :=
    ofPiece?_eq_some_iff.2 ⟨archiveFileName_ne (by simp), notDot, by rw [if_neg notDots]⟩
  rw [componentsOf, components_eq, front, counted, pieces_of_slash_not_mem plain]
  simp [relative, counts, notDot]

/-- The directory that a copy is placed below. -/
def AuxFile.placedIn (f : AuxFile) (stagingDir workingDir : String) : String :=
  match f.placement with
  | .staged => stagingDir
  | .workingDir => workingDir

theorem AuxFile.destination_eq (f : AuxFile) (stagingDir workingDir : String) :
    f.destination stagingDir workingDir = joinText (f.placedIn stagingDir workingDir) f.target := by
  unfold AuxFile.destination AuxFile.placedIn
  cases f.placement <;> rfl

/-- No accepted text leads out of where it is read from. Which texts are accepted is told by their
pieces, each leads below every root that is not empty, and so all paths of the output lie below the
working directory: the output directory by one name or more, the staging directory and the archive
by exactly one name more, the archive's being its file name, and the copies of the manifest's files
below the staging directory or the working directory. -/
theorem output_paths_below :
    (∀ path what, checkRelative path what = .ok () ↔
      Blank.isBlank path = false ∧ isAbsolute (Utf8.encode path) = false ∧
        [dot, dot] ∉ pieces (Utf8.encode path) ∧
        ∃ piece ∈ pieces (Utf8.encode path), piece ≠ [] ∧ piece ≠ [dot]) ∧
      (∀ path what root, checkRelative path what = .ok () → root ≠ "" →
        NamedBelow root (joinText root path)) ∧
      ∀ (c : Config) (fs : FileSystem), c.validate fs = .ok () → c.workingDir ≠ "" →
        NamedBelow c.workingDir c.layout.destinationRoot ∧
          (∃ name, componentsOf c.layout.stagingDir =
            componentsOf c.layout.destinationRoot ++ [.name name]) ∧
          componentsOf c.layout.archivePath = componentsOf c.layout.destinationRoot ++
            [.name (Utf8.encode ("b" ++ c.version ++ "." ++ c.archiveExtension))] ∧
          ∀ f ∈ c.auxFiles, NamedBelow (f.placedIn c.layout.stagingDir c.workingDir)
            (f.destination c.layout.stagingDir c.workingDir) := by
  refine ⟨fun _ _ => checkRelative_eq_ok_iff, fun _ _ _ => namedBelow_of_checkRelative, ?_⟩
  intro c fs accepted some_
  obtain ⟨_, _, outDir, _, staging, version, extension, manifest⟩ :=
    Config.checks_of_validate accepted
  have destination : c.layout.destinationRoot ≠ "" := joinText_ne_empty some_
  refine ⟨namedBelow_of_checkRelative outDir some_, ?_, ?_, ?_⟩
  · unfold Config.checkStagingName at staging
    split at staging
    · rename_i bytes single
      exact ⟨bytes, componentsOf_joinText_of_single single destination⟩
    · cases staging
  · exact componentsOf_joinText_of_single
      (componentsOf_archiveFileName (slash_not_mem_of_checkToken version)
        (slash_not_mem_of_checkToken extension)) destination
  · intro f there
    have target : checkRelative f.target "manifest destination" = .ok () :=
      (checks_of_validateManifest manifest f there).2
    rw [AuxFile.destination_eq]
    refine namedBelow_of_checkRelative target ?_
    unfold AuxFile.placedIn
    cases f.placement with
    | staged => exact joinText_ne_empty destination
    | workingDir => exact some_

/-- A game with nothing in it. -/
def bareGame : FileSystem := (FileSystem.empty {}).plant "/pz" .directory

/-- Paths with slashes and dots to spare, and one of dots that is a name. -/
def dottedConfig : Config where
  sourceRoot := "/pz"
  workingDir := "./work//"
  outDir := "./lib//x/."
  stagingDirName := "st//."
  auxFiles := [⟨"a", ".//...", .staged⟩, ⟨"a", "b/./c/", .workingDir⟩]

theorem output_paths_below_dotted :
    dottedConfig.validate bareGame = .ok () ∧ dottedConfig.workingDir ≠ "" ∧
      NamedBelow "./work//" dottedConfig.layout.destinationRoot ∧
      (∃ name, componentsOf dottedConfig.layout.stagingDir =
        componentsOf dottedConfig.layout.destinationRoot ++ [.name name]) ∧
      componentsOf dottedConfig.layout.archivePath =
        componentsOf dottedConfig.layout.destinationRoot ++
          [.name (Utf8.encode ("b" ++ "42" ++ "." ++ "jar"))] ∧
      ∀ f ∈ dottedConfig.auxFiles, NamedBelow (f.placedIn dottedConfig.layout.stagingDir "./work//")
        (f.destination dottedConfig.layout.stagingDir "./work//") := by
  have accepted : dottedConfig.validate bareGame = .ok () := by decide
  have some_ : dottedConfig.workingDir ≠ "" := by decide
  exact ⟨accepted, some_, output_paths_below.2.2 dottedConfig bareGame accepted some_⟩

end ClassPack
