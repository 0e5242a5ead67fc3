import ClassPack.Archive.Archiver

/-!
# Zip — the archiver that needs no other program

The entries of an archive follow the staged tree: a directory stands directly before what it
holds, and the entries of one directory in the order of their names' bytes. Links are left out.
Every archive gets a manifest; unless the tree has one, a short one of our own comes first.
Entries are written in the form that takes no more than `largestEntry` bytes: a larger file breaks
the making off.

* `FileSystem.listing`, what lies below a directory, links not followed;
* `Packed`, the entries for a listing, as far as they can be made;
* `zipArchiver`.
-/

namespace ClassPack

/-! ## Listing -/

/-- An entry below a directory: its names as seen from there, the text it is reached by, and what it
is. -/
structure Listed where
  names : Place
  path : Path
  entry : Entry

/-- All that lies below a directory, links not followed. A directory whose text is too long to be
read stumbles where its entries would stand. -/
def FileSystem.listing (fs : FileSystem) (root : Path) : List (Except WalkFault Listed) :=
  match fs.lookup root with
  | .error e => [.error (.io root e)]
  | .ok (here, .directory) =>
      (fs.below here.place).flatMap fun (names, entry) =>
        let path := root.join names.relativePath
        let listed := .ok ⟨names, path, entry⟩
        match entry, fs.vet path with
        | .directory, .error e => [listed, .error (.io path e)]
        | _, _ => [listed]
  | .ok _ => []

/-! ## Entries -/

/-- Entries of an archive; the name of a directory ends in a slash. -/
abbrev ArchiveEntries := List (String × Content)

/-- What an archive without entries consists of: the record that ends the list of entries. -/
def endRecord : Bytes := [0x50, 0x4B, 0x05, 0x06] ++ List.replicate 18 0

/-- The content of an archive file. -/
def Content.ofEntries (entries : ArchiveEntries) : Content :=
  if entries.isEmpty then .plain endRecord else .archive entries

/-- The name of the manifest in an archive. -/
def manifestName : String := "META-INF/MANIFEST.MF"

/-- The name of the directory that holds the manifest. -/
def manifestDir : String := "META-INF"

/-- The manifest of archives whose tree has none. -/
def manifestText : String := "Manifest-Version: 1.0\r\nCreated-By: pz-extract\r\n\r\n"

/-- The entries that come before those of the tree: none if the tree has a manifest, and else the
manifest of our own, after its directory if the tree has none. -/
def prologue (fs : FileSystem) (staged : String) : ArchiveEntries :=
  if fs.isFile (Utf8.encode (joinText staged manifestName)) then []
  else
    (if fs.isDir (Utf8.encode (joinText staged manifestDir)) then []
     else [(manifestDir ++ "/", .plain [])]) ++
    [(manifestName, .plain (Utf8.encode manifestText))]

/-- Entries made of a listing: the log of their making, and what broke it off. -/
structure Packed where
  entries : ArchiveEntries := []
  log : List String := []
  fault : Option Failure := none

/-- Makes entries of a listing, until something stands in the way. -/
def packListing (fs : FileSystem) (staged : String) : List (Except WalkFault Listed) → Packed
  | [] => {}
  | .error fault :: _ => { fault := some (.walk staged fault) }
  | .ok item :: rest =>
      match Utf8.decode? item.names.relativePath with
      | none => { fault := some (.io (.strangePath item.path)) }
      | some name =>
          match item.entry with
          | .directory =>
              let more := packListing fs staged rest
              { more with entries := (name ++ "/", .plain []) :: more.entries }
          | .link _ => packListing fs staged rest
          | .file content =>
              match fs.vet item.path with
              | .error e =>
                  -- The entry is begun before its file is opened.
                  { entries := [(name, .plain [])], log := [s!"zip entry {name}"],
                    fault := some (.io e) }
              | .ok () =>
                  if fs.limits.fitsEntry content then
                    let more := packListing fs staged rest
                    { more with
                      entries := (name, content) :: more.entries
                      log := s!"zip entry {name}" :: more.log }
                  else
                    -- The entry is begun, and taken back when it grows too large.
                    { log := [s!"zip entry {name}"], fault := some (.io .largeFile) }

/-! ## The archiver -/

/-- Makes the archive itself. If it breaks off, the archive holds the entries made so far. -/
def zipArchiver : Archiver where
  pack staged archive := do
    makeArchiveDirs archive
    let site ← Work.files .io (FileSystem.openForWriting (Utf8.encode archive))
    let before ← Work.view (prologue · staged)
    let packed ← Work.view fun fs => packListing fs staged (fs.listing (Utf8.encode staged))
    Work.files .io (FileSystem.fill site (.ofEntries (before ++ packed.entries)))
    Work.logAll .trace packed.log
    match packed.fault with
    | some fault => throw fault
    | none => Work.log .debug s!"wrote {archive}"

end ClassPack
