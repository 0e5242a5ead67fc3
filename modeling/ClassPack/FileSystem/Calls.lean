import ClassPack.FileSystem.Resolve

/-!
# Calls — changing the file system by path text

Each call says which of the two it acts on: an entry *itself*, or what is reached *through* it.

* at the entry: `makeDir`, `makeLink`, `unlink`, `removeEmptyDir`; each changes everything it means
  to or nothing;
* through links: `openForWriting`, `writeFile`, `copy`;
* compound calls, which can fail half-way: `createDirs` makes the directories above as needed, and
  `removeTree` empties a directory before it takes it away.
-/

namespace ClassPack
namespace FileSystem

/-- Calls that give a value or fail, and leave the file system as far as they got. -/
abbrev Calls := EStateM IoFault FileSystem

/-- A call that fails without a change. -/
def atomically (f : FileSystem → Except IoFault FileSystem) : Calls Unit := fun fs =>
  match f fs with
  | .ok changed => .ok () changed
  | .error e => .error e fs

/-! ## At the entry -/

/-- Makes a directory. -/
def makeDir (fs : FileSystem) (p : Path) : Except IoFault FileSystem := do
  match ← fs.locate p with
  | .node _ _ => .error (.os .exists)
  | .entry dir n _ =>
      match fs.at? (dir ++ [n]) with
      | some _ => .error (.os .exists)
      | none => .ok (fs.put dir n .directory)

/-- Takes away a file or a link. -/
def unlink (fs : FileSystem) (p : Path) : Except IoFault FileSystem := do
  match ← fs.locate p with
  | .node _ _ => .error (.os .isDirectory)
  | .entry dir n slash =>
      match fs.at? (dir ++ [n]) with
      | none => .error (.os .noEntry)
      | some .directory => .error (.os .isDirectory)
      | some _ => if slash then .error (.os .notDirectory) else .ok (fs.remove (dir ++ [n]))

/-- Takes away an empty directory. -/
def removeEmptyDir (fs : FileSystem) (p : Path) : Except IoFault FileSystem := do
  match ← fs.locate p with
  | .node _ (some .here) => .error (.os .invalid)
  | .node _ (some _) => .error (.os .notEmpty)
  | .node _ none => .error (.os .busy)
  | .entry dir n _ =>
      match fs.at? (dir ++ [n]) with
      | none => .error (.os .noEntry)
      | some .directory =>
          if (fs.children (dir ++ [n])).isEmpty then .ok (fs.remove (dir ++ [n]))
          else .error (.os .notEmpty)
      | some _ => .error (.os .notDirectory)

/-- Makes a link. -/
def makeLink (fs : FileSystem) (p target : Path) : Except IoFault FileSystem := do
  match ← fs.locate p with
  | .node _ _ => .error (.os .exists)
  | .entry dir n slash =>
      match fs.at? (dir ++ [n]) with
      | some _ => .error (.os .exists)
      | none => if slash then .error (.os .noEntry) else .ok (fs.put dir n (.link target))

/-! ## Through links -/

/-- Where a file opened for writing stands or will stand: a last link is followed, also to a place
where nothing stands yet. The first argument bounds the last links followed in a row. -/
def creationSite (fs : FileSystem) :
    Nat → Nat → Place → List Segment → Bool → Except Errno (Place × Name)
  | 0, _, _, _, _ => .error .tooManyLinks
  | hops + 1, links, p, segments, slash => do
      let (target, left) ← fs.locateFrom links p segments slash
      match target with
      | .node _ _ => .error .isDirectory
      | .entry dir n slash =>
          if slash then .error .isDirectory
          else
            match fs.at? (dir ++ [n]) with
            | some .directory => .error .isDirectory
            | some (.link text) =>
                match left with
                | 0 => .error .tooManyLinks
                | left + 1 =>
                    creationSite fs hops left (text.origin dir) text.segments text.endsInSlash
            | _ => .ok (dir, n)

/-- Where a file opened for writing under a text stands or will stand. -/
def writingSite (fs : FileSystem) (p : Path) : Except IoFault (Place × Name) := do
  fs.vet p
  refused (fs.creationSite (fs.limits.links + 1) fs.limits.links (p.origin fs.workingDir) p.segments
    p.endsInSlash)

/-- Opens a file for writing: it is empty from then on. -/
def openForWriting (p : Path) : Calls (Place × Name) := fun fs =>
  match fs.writingSite p with
  | .ok (dir, n) => .ok (dir, n) (fs.put dir n (.file (.plain [])))
  | .error e => .error e fs

/-- Fills a file that was opened for writing. -/
def fill (site : Place × Name) (content : Content) : Calls Unit := fun fs =>
  .ok () (fs.put site.1 site.2 (.file content))

/-- Writes a file. -/
def writeFile (p : Path) (content : Content) : Calls Unit := do
  let site ← openForWriting p
  fill site content

/-- The content of the file at a place. -/
def contentAt (fs : FileSystem) (p : Place) : Content :=
  match fs.at? p with
  | some (.file content) => content
  | _ => .plain []

/-- Where the regular file that is to be copied stands. -/
def readingSite (fs : FileSystem) (p : Path) : Except IoFault Place := do
  match ← fs.lookup p with
  | (standing, .file _) => .ok standing.place
  | _ => .error .notRegular

/-- Copies a file. The source is checked before the target is opened, and read after that. -/
def copy (source target : Path) : Calls Unit := fun fs =>
  match fs.readingSite source with
  | .error e => .error e fs
  | .ok place =>
      match openForWriting target fs with
      | .error e opened => .error e opened
      -- A file that is its own target is empty by now.
      | .ok site opened => fill site (opened.contentAt place) opened

/-! ## Compound calls -/

/-- Makes the first directory of a list, given those above it, nearest first. The ones above are
made only if the first attempt finds that something is missing. -/
def createChain : List Path → Calls Unit
  | [] => pure ()
  | p :: above => fun fs =>
      match fs.makeDir p with
      | .ok made => .ok () made
      | .error (.os .noEntry) =>
          -- Something above is missing: it is made, and then one more attempt.
          match createChain above fs with
          | .error e partly => .error e partly
          | .ok () partly =>
              match partly.makeDir p with
              | .ok made => .ok () made
              | .error e => if partly.isDir p then .ok () partly else .error e partly
      | .error e => if fs.isDir p then .ok () fs else .error e fs

/-- Makes a directory and what is missing above it; one that is there already will do. -/
def createDirs (p : Path) : Calls Unit := createChain p.ancestors

/-- Takes away a directory and all below it. Links below are taken away themselves, and so is the
path's last step if it is a link. What lies below goes first, and stays gone if the directory itself
cannot be taken away. -/
def removeTree (p : Path) : Calls Unit := fun fs =>
  match fs.lstat p with
  | .error e => .error e fs
  | .ok (.link _) => atomically (·.unlink p) fs
  | .ok _ =>
      match fs.lookup p with
      | .error e => .error e fs
      | .ok (standing, .directory) =>
          let emptied := fs.clear standing.place
          match emptied.removeEmptyDir p with
          | .ok removed => .ok () removed
          -- The path went through a directory that it has just emptied: there is nothing left to
          -- do.
          | .error (.os .noEntry) => .ok () emptied
          | .error e => .error e emptied
      | .ok _ => .error (.os .notDirectory) fs

/-- Takes away a directory and all below it, if it is there. -/
def removeTreeIfThere (p : Path) : Calls Unit := fun fs =>
  match removeTree p fs with
  | .error (.os .noEntry) left => .ok () left
  | result => result

end FileSystem
end ClassPack
