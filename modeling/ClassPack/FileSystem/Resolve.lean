import ClassPack.FileSystem.Basic
import ClassPack.FileSystem.Fault

/-!
# Resolve — from what is written to where it is

A path text is read step by step from the root or the working directory. A link met on the way is
replaced by the steps of its target, and a bound on the links followed makes every reading end.

* `FileSystem.follow` reads steps, following every link, one after the other (`scan_append`,
  `follow_append`), and `FileSystem.resolve` a whole text;
* `FileSystem.locate` reads all but the last step, for the calls that act on an entry itself;
* `FileSystem.lookup`, `isDir`, `isFile` and `lstat`, what stands there, with and without
  following a last link;
* `FileSystem.canonical?`, the text of a place without links.
-/

namespace ClassPack

namespace Path

/-- All steps that a text asks for; a final slash asks for a directory. -/
def steps (p : Path) : List Segment :=
  p.segments ++ (if p.endsInSlash then [.here] else [])

/-- Where the reading of a text starts, if it is met in a directory. -/
def origin (p : Path) (dir : Place) : Place := if p.isAbsolute then [] else dir

end Path

namespace FileSystem

/-! ## Following steps -/

/-- Steps can be taken from directories only. -/
def enterable (fs : FileSystem) (p : Place) : Except Errno Unit :=
  match fs.at? p with
  | some .directory => .ok ()
  | some _ => .error .notDirectory
  | none => .error .noEntry

/-- Dots can be read in directories, and also in a working directory that has been taken away. -/
def readable (fs : FileSystem) (p : Place) : Except Errno Unit :=
  match fs.at? p with
  | some .directory | none => .ok ()
  | some _ => .error .notDirectory

/-- How far steps lead without a link being followed. -/
inductive Stretch where
  /-- All steps are taken. -/
  | arrived (place : Place)
  /-- A link stands in the way. -/
  | link (dir : Place) (target : Path) (rest : List Segment)

/-- Takes steps up to the first link. -/
def scan (fs : FileSystem) : Place → List Segment → Except Errno Stretch
  | p, [] => .ok (.arrived p)
  | p, .here :: rest =>
      match fs.readable p with
      | .error e => .error e
      | .ok () => scan fs p rest
  | p, .up :: rest =>
      match fs.readable p with
      | .error e => .error e
      | .ok () => scan fs p.parent rest
  | p, .name n :: rest =>
      match fs.enterable p with
      | .error e => .error e
      | .ok () =>
          if exceeds n.bytes.length fs.limits.name then .error .nameTooLong
          else
            match fs.at? (p ++ [n]) with
            | none => .error .noEntry
            | some (.link target) => .ok (.link p target rest)
            | some _ => scan fs (p ++ [n]) rest

/-- A place that was reached, and how many links may still be followed from there. -/
structure Standing where
  place : Place
  links : Nat
  deriving DecidableEq

/-- Takes steps and follows every link among them. -/
def follow (fs : FileSystem) : Nat → Place → List Segment → Except Errno Standing
  | links, p, steps =>
      match fs.scan p steps with
      | .error e => .error e
      | .ok (.arrived q) => .ok ⟨q, links⟩
      | .ok (.link dir target rest) =>
          match links with
          | 0 => .error .tooManyLinks
          | left + 1 => follow fs left (target.origin dir) (target.steps ++ rest)

/-! ## One step after the other -/

theorem scan_append (fs : FileSystem) (p : Place) (s t : List Segment) :
    fs.scan p (s ++ t) =
      match fs.scan p s with
      | .error e => .error e
      | .ok (.arrived q) => fs.scan q t
      | .ok (.link dir target rest) => .ok (.link dir target (rest ++ t)) := by
  fun_induction scan fs p s with
  | case1 p => rfl
  | case2 p rest e refused => simp [scan, refused]
  | case3 p rest read ih => simpa [scan, read] using ih
  | case4 p rest e refused => simp [scan, refused]
  | case5 p rest read ih => simpa [scan, read] using ih
  | case6 p n rest e refused => simp [scan, refused]
  | case7 p n rest entered long => simp [scan, entered, long]
  | case8 p n rest entered short missing => simp [scan, entered, short, missing]
  | case9 p n rest entered short target there => simp [scan, entered, short, there]
  | case10 p n rest entered short e notLink there ih =>
      -- The match on the entry only goes away once the entry is known.
      cases e with
      | link target => exact absurd rfl (notLink target)
      | directory => simpa [scan, entered, short, there] using ih
      | file content => simpa [scan, entered, short, there] using ih

theorem follow_append (fs : FileSystem) (links : Nat) (p : Place) (s t : List Segment) :
    fs.follow links p (s ++ t) =
      match fs.follow links p s with
      | .error e => .error e
      | .ok m => fs.follow m.links m.place t := by
  fun_induction follow fs links p s with
  | case1 links p s e refused =>
      unfold follow
      simp [scan_append, refused]
  | case2 links p s q arrived =>
      show fs.follow links p (s ++ t) = fs.follow links q t
      unfold follow
      simp [scan_append, arrived]
  | case3 p s dir target rest stretch =>
      unfold follow
      simp [scan_append, stretch]
  | case4 p s dir target rest stretch left ih =>
      rw [follow, scan_append, stretch]
      simpa using ih

/-- Whoever arrives has arrived wherever the first steps lead. -/
theorem follow_prefix {fs : FileSystem} {links : Nat} {p : Place} {s t : List Segment}
    {standing : Standing} (h : fs.follow links p (s ++ t) = .ok standing) :
    ∃ m, fs.follow links p s = .ok m ∧ fs.follow m.links m.place t = .ok standing := by
  rw [follow_append] at h
  cases front : fs.follow links p s with
  | error e => simp [front] at h
  | ok m => exact ⟨m, rfl, by simpa [front] using h⟩

theorem follow_nil (fs : FileSystem) (links : Nat) (p : Place) :
    fs.follow links p [] = .ok ⟨p, links⟩ := by
  simp [follow, scan]

/-! ## Whole texts -/

/-- Whether the system takes a text at all. -/
def vet (fs : FileSystem) (p : Path) : Except IoFault Unit :=
  if 0 ∈ p then .error .zeroByte
  else if p = [] then .error (.os .noEntry)
  else if exceeds p.length fs.limits.path then .error (.os .nameTooLong)
  else .ok ()

/-- A refusal by the system as a failure. -/
def refused {α : Type} : Except Errno α → Except IoFault α
  | .ok a => .ok a
  | .error e => .error (.os e)

/-- Where a text leads when every link is followed. -/
def resolve (fs : FileSystem) (p : Path) : Except IoFault Standing := do
  fs.vet p
  refused (fs.follow fs.limits.links (p.origin fs.workingDir) p.steps)

/-- What stands where a text leads, every link followed. -/
def lookup (fs : FileSystem) (p : Path) : Except IoFault (Standing × Entry) := do
  let standing ← fs.resolve p
  match fs.at? standing.place with
  | some e => .ok (standing, e)
  | none => .error (.os .noEntry)

/-- Whether a text leads to a directory. -/
def isDir (fs : FileSystem) (p : Path) : Bool :=
  match fs.lookup p with
  | .ok (_, .directory) => true
  | _ => false

/-- Whether a text leads to a regular file. -/
def isFile (fs : FileSystem) (p : Path) : Bool :=
  match fs.lookup p with
  | .ok (_, .file _) => true
  | _ => false

/-- The absolute text without links for where a path leads, if it leads anywhere and its names spell
a text. The length of the path itself is no obstacle here, as its names are looked up one by one. -/
def canonical? (fs : FileSystem) (s : String) : Option String :=
  let p : Path := Utf8.encode s
  if p = [] ∨ 0 ∈ p then none
  else
    match fs.follow fs.limits.links (p.origin fs.workingDir) p.steps with
    | .error _ => none
    | .ok standing =>
        if (fs.at? standing.place).isNone || exceeds standing.place.path.length fs.limits.path then
          none
        else Utf8.decode? standing.place.path

/-! ## The entry itself -/

/-- What a text names when its last step is not taken. -/
inductive Target where
  /-- The text ends in a step that is no name, or names the root: the directory it leads to. -/
  | node (place : Place) (last : Option Segment)
  /-- An entry of a directory, there or not, and whether a slash follows its name. -/
  | entry (dir : Place) (name : Name) (slash : Bool)

/-- Takes all steps but the last; also gives how many links may still be followed. -/
def locateFrom (fs : FileSystem) (links : Nat) (p : Place) (segments : List Segment)
    (slash : Bool) : Except Errno (Target × Nat) :=
  match segments.getLast? with
  | none => .ok (.node p none, links)
  | some last => do
      let standing ← fs.follow links p segments.dropLast
      match last with
      | .here =>
          fs.readable standing.place
          .ok (.node standing.place (some .here), standing.links)
      | .up =>
          fs.readable standing.place
          .ok (.node standing.place.parent (some .up), standing.links)
      | .name n =>
          fs.enterable standing.place
          if exceeds n.bytes.length fs.limits.name then .error .nameTooLong
          else .ok (.entry standing.place n slash, standing.links)

/-- What a text names, its last step not taken. -/
def locate (fs : FileSystem) (p : Path) : Except IoFault Target := do
  fs.vet p
  let found ← refused
    (fs.locateFrom fs.limits.links (p.origin fs.workingDir) p.segments p.endsInSlash)
  .ok found.1

/-- What stands at the entry that a text names; a last link is followed only if a slash comes
after. -/
def lstat (fs : FileSystem) (p : Path) : Except IoFault Entry := do
  match ← fs.locate p with
  | .node place _ =>
      match fs.at? place with
      | some e => .ok e
      | none => .error (.os .noEntry)
  | .entry dir n slash =>
      match fs.at? (dir ++ [n]) with
      | none => .error (.os .noEntry)
      | some e => if slash then (fs.lookup p).map (·.2) else .ok e

end FileSystem
end ClassPack
