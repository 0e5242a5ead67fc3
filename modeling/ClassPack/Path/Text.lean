import ClassPack.Text.Utf8

/-!
# Text — the text of a path

A path is a text of pieces set apart by slashes. Nothing here looks at a file system, and no text is
ever tidied up: `join` and `parent?` keep what was written.

* `Path`, the bytes of such a text, and `Path.pieces`, what stands between its slashes; `Path.glue`
  puts them together again (`glue_pieces`, `pieces_glue`);
* `Path.components`, the pieces that count, and `Path.startsWith`, which compares components;
* `Path.join` for texts in bytes and `joinText` for strings (`encode_joinText` ties them together);
* `Path.parent?` and `Path.ancestors`, the texts of the directories above.
-/

namespace ClassPack

/-- The text of a path, as the file system receives it. -/
abbrev Path := Bytes

/-- The byte between two pieces of a path. -/
def slash : UInt8 := 0x2F

/-- The byte that alone means "here" and twice means "one level up". -/
def dot : UInt8 := 0x2E

namespace Path

/-! ## Pieces and components -/

/-- What stands between the slashes of a text; empty pieces are kept. -/
def pieces : Path → List Bytes
  | [] => [[]]
  | b :: rest =>
      if b = slash then [] :: pieces rest
      else
        match pieces rest with
        | [] => [[b]]
        | piece :: more => (b :: piece) :: more

/-- Pieces with slashes between them. -/
def glue : List Bytes → Path
  | [] => []
  | [piece] => piece
  | piece :: more => piece ++ slash :: glue more

theorem pieces_ne_nil (p : Path) : pieces p ≠ [] := by
  cases p with
  | nil => simp [pieces]
  | cons b rest =>
      unfold pieces
      split
      · simp
      · split <;> simp

/-- No piece holds a slash. -/
theorem slash_not_mem_of_mem_pieces {p : Path} {piece : Bytes} (h : piece ∈ pieces p) :
    slash ∉ piece := by
  induction p generalizing piece with
  | nil => simp_all [pieces]
  | cons b rest ih =>
      unfold pieces at h
      split at h
      · -- A slash ends an empty piece.
        rcases List.mem_cons.1 h with rfl | later
        · simp
        · exact ih later
      · rename_i other
        cases split : pieces rest with
        | nil => exact absurd split (pieces_ne_nil rest)
        | cons first more =>
            rw [split] at h ih
            rcases List.mem_cons.1 h with rfl | later
            · -- Any other byte belongs to the first piece.
              have : slash ∉ first := ih (List.mem_cons_self ..)
              simp [this, Ne.symm other]
            · exact ih (List.mem_cons_of_mem _ later)

/-- Nothing is lost between the slashes. -/
theorem glue_pieces (p : Path) : glue (pieces p) = p := by
  induction p with
  | nil => rfl
  | cons b rest ih =>
      cases split : pieces rest with
      | nil => exact absurd split (pieces_ne_nil rest)
      | cons first more =>
          rw [split] at ih
          by_cases same : b = slash
          · simp [pieces, same, split, glue, ih]
          · -- The byte stands in front of the first piece, whether that is the last or not.
            cases more with
            | nil => simpa [pieces, same, split, glue] using ih
            | cons second more => simpa [pieces, same, split, glue] using ih

/-- Pieces without slashes can be read off the text again. -/
theorem pieces_glue {l : List Bytes} (some_ : l ≠ []) (plain : ∀ piece ∈ l, slash ∉ piece) :
    pieces (glue l) = l := by
  induction l with
  | nil => exact absurd rfl some_
  | cons piece more ih =>
      have free : slash ∉ piece := plain piece (List.mem_cons_self ..)
      cases more with
      | nil =>
          show pieces piece = [piece]
          clear ih plain some_
          induction piece with
          | nil => rfl
          | cons b rest ih =>
              have : b ≠ slash := fun same => free (by simp [same])
              simp [pieces, this, ih fun there => free (by simp [there])]
      | cons second more =>
          have tail := ih (by simp) fun q there => plain q (List.mem_cons_of_mem _ there)
          show pieces (piece ++ slash :: glue (second :: more)) = _
          clear ih plain some_
          induction piece with
          | nil => simp [pieces, tail]
          | cons b rest ih =>
              have : b ≠ slash := fun same => free (by simp [same])
              simp [pieces, this, ih fun there => free (by simp [there])]

/-- Whether a text starts at the root. -/
def isAbsolute (p : Path) : Bool := p.head? == some slash

/-- Whether a text ends in a slash. -/
def endsInSlash (p : Path) : Bool := p.getLast? == some slash

/-- A part of a path that counts. -/
inductive Component where
  /-- The slash at the front. -/
  | root
  /-- A dot at the front of a relative path. -/
  | here
  /-- One level up. -/
  | up
  /-- The name of an entry. -/
  | name (bytes : Bytes)
  deriving DecidableEq, Repr

namespace Component

/-- What a piece after the first counts for: empty pieces and single dots for nothing. -/
def ofPiece? (piece : Bytes) : Option Component :=
  if piece = [] ∨ piece = [dot] then none
  else if piece = [dot, dot] then some .up
  else some (.name piece)

/-- Whether the component names an entry. -/
def isName : Component → Bool
  | .name _ => true
  | _ => false

/-- Whether the component stays in the directory it is read in, or goes below it. -/
def isDownward : Component → Bool
  | .name _ | .here => true
  | _ => false

end Component

/-- The components of a path: repeated and final slashes vanish, and a dot counts only at the front
of a relative path. -/
def components (p : Path) : List Component :=
  match pieces p with
  | [] => []
  | first :: rest =>
      let tail := rest.filterMap Component.ofPiece?
      if first = [] then if rest = [] then [] else .root :: tail
      else if first = [dot] then .here :: tail
      else (Component.ofPiece? first).toList ++ tail

/-- Whether the components of `q` are the first components of `p`. -/
def startsWith (p q : Path) : Bool := (components q).isPrefixOf (components p)

/-! ## Joining -/

/-- `q` as read from `p`: an absolute `q` stands for itself, and otherwise a slash is put between
the two unless `p` is empty or ends in one. -/
def join (p q : Path) : Path :=
  if isAbsolute q then q
  else if p = [] ∨ endsInSlash p then p ++ q
  else p ++ slash :: q

/-! ## The directories above -/

/-- Whether a piece counts for nothing; `before` holds the pieces in front of it, the nearest
first. -/
def silent (absolute : Bool) (piece : Bytes) (before : List Bytes) : Bool :=
  piece == [] || (piece == [dot] && (absolute || before != []))

/-- The beginnings of a list of pieces that end in one that counts, the longest first. Pieces are
given and returned last first. -/
def beginnings (absolute : Bool) : List Bytes → List (List Bytes)
  | [] => []
  | piece :: before =>
      if silent absolute piece before then beginnings absolute before
      else (piece :: before) :: beginnings absolute before

/-- The pieces behind the slash at the front, or all pieces of a relative path; last first. -/
def body (p : Path) : List Bytes :=
  (if isAbsolute p then (pieces p).drop 1 else pieces p).reverse

/-- The text whose body is the given one. -/
def ofBody (absolute : Bool) (pieces : List Bytes) : Path :=
  if absolute then slash :: glue pieces.reverse else glue pieces.reverse

/-- The text of the directory above: what is left when the last component and all that is silent
around it are taken away. The root and the empty text have none. -/
def parent? (p : Path) : Option Path :=
  match beginnings (isAbsolute p) (body p) with
  | [] => none
  | _ :: above =>
      match above with
      | [] => some (ofBody (isAbsolute p) [])
      | next :: _ => some (ofBody (isAbsolute p) next)

/-- The text itself and those of the directories above it, nearest first, without the empty text. -/
def ancestors (p : Path) : List Path :=
  if p = [] then []
  else
    match beginnings (isAbsolute p) (body p) with
    | [] => [p]
    | _ :: above =>
        p :: above.map (ofBody (isAbsolute p)) ++ (if isAbsolute p then [[slash]] else [])

end Path

/-! ## Paths as strings -/

/-- The components of a path given as a string. -/
def componentsOf (s : String) : List Path.Component := Path.components (Utf8.encode s)

/-- `t` as read from `s`, for strings. -/
def joinText (s t : String) : String :=
  if Path.isAbsolute (Utf8.encode t) then t
  else if Utf8.encode s = [] ∨ Path.endsInSlash (Utf8.encode s) then s ++ t
  else s ++ "/" ++ t

theorem encode_joinText (s t : String) :
    Utf8.encode (joinText s t) = Path.join (Utf8.encode s) (Utf8.encode t) := by
  have one : Utf8.encode "/" = [slash] := by decide
  unfold joinText Path.join
  split
  · rfl
  · split
    · simp
    · simp [one]

end ClassPack
