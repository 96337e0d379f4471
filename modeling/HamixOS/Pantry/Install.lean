import HamixOS.Pantry.Remove
import HamixOS.Pantry.TarStream
import HamixOS.Lib.Lines

namespace HamixOS.Pantry

open Lib

/-!
# Installing a package (`ops.rs`)

`installOne` displaces the packages that share an exclusive virtual name with the new one,
downloads and checks the package, looks for files that others own, takes those over that it may,
and unpacks the archive, which it reads twice: once for a list of its entries, and once to write
them.

`Tools` are the decompressor and the digests; no property of them is used.  `World` is what the
network and the file system answer in a call.
-/

structure Repo where
  name : Text
  layer : Text
  deriving DecidableEq

/-- The fields of a package of the catalog that an installation reads. -/
structure Pkg where
  name : Text
  version : Text
  description : Text
  checksum : Text
  depends : List Text
  provides : List Text
  deriving DecidableEq

/-- `PROTECTED`. -/
def protectedPaths : List Text :=
  ["etc/passwd".toList, "etc/shadow".toList, "etc/group".toList, "etc/hostname".toList, "etc/hosts".toList,
    "etc/resolv.conf".toList, "etc/machine-id".toList]

def isScript (name : Text) : Bool :=
  name.head? = some '.' && ("-install".toList.isSuffixOf name || "-upgrade".toList.isSuffixOf name ||
    "-deinstall".toList.isSuffixOf name || name = ".trigger".toList)

def virtualNames (provides : List Text) (own : Text) : List Text :=
  provides.foldl (fun out token =>
    let name := (providedName token).1
    if name ≠ own ∧ name ∉ out then out ++ [name] else out) []

def exclusiveNames (provides : List Text) (own : Text) : List Text :=
  (virtualNames provides own).filter (':' ∉ ·)

namespace Db

variable (db : Db)

def displacedBy (name : Text) (provides : List Text) : List Text :=
  let mine := exclusiveNames provides name
  (db.packages.filter (fun p => !p.isSystem && p.name ≠ name &&
    (exclusiveNames p.provides p.name).any (· ∈ mine))).map (·.name)

def displace (name : Text) : Db × List Event :=
  match db.find name with
  | none => (db, [])
  | some p => (⟨(db.erase name).packages, db.world.filter (· ≠ name)⟩, removeEvents p)

def displaceAll : List Text → Db → Db × List Event
  | [], db => (db, [])
  | name :: names, db =>
    let r := displaceAll names (db.displace name).1
    (r.1, (db.displace name).2 ++ r.2)

/-- `retain` on the list of the first package of the name. -/
def releaseFile (owner path : Text) : List Installed → List Installed
  | [] => []
  | p :: ps =>
    if p.name = owner then { p with files := p.files.filter (· ≠ path) } :: ps else p :: releaseFile owner path ps

/-- The files that are taken over leave the lists of their owners. -/
def takeOver (taken : List (Text × Text)) : Db :=
  { db with packages := taken.foldl (fun ps t => releaseFile t.1 t.2 ps) db.packages }

end Db

def mayTakeOver (replaces : List Text) (pkg : Pkg) (owner : Installed) : Bool :=
  replaces.any owner.meets ||
    (virtualNames owner.provides owner.name).any (· ∈ virtualNames pkg.provides pkg.name)

inductive InstallError where
  | fetch (message : Text)
  | archive (message : Text)
  | tar (e : TarError)
  | noChecksum
  | mismatch
  | noData
  | noControl
  | noInfo
  | dataMismatch
  | noDataHash
  | owned (path owner : Text)
  | cannotWrite (dest : Text)
  | cannotLink (dest : Text)
  | linkMissing (target : Text)
  | diskFull (dest : Text)
  | save
  deriving DecidableEq

def InstallError.message (name : Text) : InstallError → Text
  | fetch m => m
  | archive m => name ++ ": ".toList ++ m
  | tar e => name ++ ": ".toList ++ e.message
  | noChecksum => name ++ ": index has no usable checksum".toList
  | mismatch => name ++ ": checksum mismatch, refusing to install".toList
  | noData => name ++ ": package has no data section".toList
  | noControl => name ++ ": package has no control section".toList
  | noInfo => name ++ ": missing .PKGINFO".toList
  | dataMismatch => name ++ ": data hash mismatch, refusing to install".toList
  | noDataHash => name ++ ": package has no data hash, refusing to install".toList
  | owned path owner => name ++ ": file /".toList ++ path ++ " already belongs to ".toList ++ owner
  | cannotWrite dest => name ++ ": cannot write ".toList ++ dest
  | cannotLink dest => name ++ ": cannot create link ".toList ++ dest
  | linkMissing target => name ++ ": hard link target ".toList ++ target ++ " missing".toList
  | diskFull dest => name ++ ": cannot write ".toList ++ dest ++ " (disk full?)".toList
  | save => "cannot save the package database".toList

/-- `stream` is `gzip_stream`: the chunks it hands on, and how it ends if none of them is refused. -/
structure Tools where
  rawMembers : List UInt8 → Nat → Except Text (List (List UInt8))
  members : List UInt8 → Nat → Except Text (List (List UInt8))
  stream : List UInt8 → List (List UInt8) × Option Text
  sha1 : List UInt8 → List UInt8
  sha256 : List UInt8 → List UInt8
  base64 : Text → Option (List UInt8)
  hex : List UInt8 → Text

/-- What becomes of a file that is opened for writing, or written as a whole. -/
inductive Answer where
  | refused
  | cut
  | done
  deriving DecidableEq

/-- `stat` holds while the list of entries is looked through; the others are the answers at the
    events of the second reading, by their number. -/
structure World where
  download : Except Text (List UInt8)
  stat : Text → Bool
  answer : Nat → Answer
  linked : Nat → Bool
  room : Nat → Bool
  saved : Bool

/-- A package that has been opened and checked. -/
structure Archive where
  scripts : List Text
  triggers : List Text
  replaces : List Text
  data : List UInt8
  listing : List (Text × Kind)

/-- The closure `collect`. -/
def collectListing (listing : List (Text × Kind)) : TarEvent → List (Text × Kind) × Bool
  | .begins entry => (listing ++ [(entry.path, entry.kind)], true)
  | _ => (listing, true)

/-- `gzip_stream` into a `TarStream` with the callback `on`; a stream that is refused ends with an
    error of the decompressor. -/
def streamInto {σ : Type} (tools : Tools) (on : σ → TarEvent → σ × Bool) (c : σ) (data : List UInt8) :
    σ × Except InstallError Unit :=
  let r := TarStream.feedChunks on .new c (tools.stream data).1
  (r.2.1,
    if r.2.2 = false then .error (.archive "inflate: output rejected".toList)
    else match (tools.stream data).2 with
      | some e => .error (.archive e)
      | none =>
        match r.1.error with
        | some e => .error (.tar e)
        | none => .ok ())

/-- The values of the lines that start with `key`, and the words in them. -/
def infoWords (key info : Text) : List Text := ((Text.lines info).filterMap (Text.stripPrefix key)).flatMap Text.words

/-- `ok_or_else`. -/
def okOr {α : Type} (x : Option α) (e : InstallError) : Except InstallError α := x.elim (.error e) .ok

def ensure (p : Prop) [Decidable p] (e : InstallError) : Except InstallError Unit := if p then .ok () else .error e

/-- The checks of a downloaded package, and the first reading of its data. -/
def openArchive (tools : Tools) (pkg : Pkg) (bytes : List UInt8) : Except InstallError Archive := do
  let raws ← (tools.rawMembers bytes 3).mapError .archive
  let wanted ← okOr ((Text.stripPrefix "Q1".toList pkg.checksum).bind tools.base64) .noChecksum
  let controlAt ← okOr (raws.findIdx? (fun m => tools.sha1 m = wanted)) .mismatch
  ensure (controlAt + 1 < raws.length) .noData
  let members ← (tools.members (raws.getD controlAt []) 1).mapError .archive
  let controlData ← okOr members.head? .noControl
  let control ← (tarEntries controlData).mapError .tar
  let pkginfo ← okOr (control.find? (fun e => e.path = ".PKGINFO".toList)) .noInfo
  let info := fromUtf8Lossy pkginfo.data
  let data := bytes.drop ((raws.take (controlAt + 1)).map List.length).sum
  let expected ← okOr ((Text.lines info).findSome? (Text.stripPrefix "datahash = ".toList)) .noDataHash
  ensure (tools.hex (tools.sha256 data) = trim expected) .dataMismatch
  let listing := streamInto tools collectListing [] data
  listing.2
  return {
    scripts := (control.filter (fun e => isScript e.path)).map (·.path)
    triggers := infoWords "triggers = ".toList info
    replaces := infoWords "replaces = ".toList info
    data
    listing := listing.1 }

/-- The loop over the list of entries: the files to take over with their owners, and those that
    were there before and belong to no package. -/
def survey (db : Db) (layer : Text) (pkg : Pkg) (replaces : List Text) (stat : Text → Bool) :
    List (Text × Kind) → Except InstallError (List (Text × Text) × List Text)
  | [] => .ok ([], [])
  | (path, kind) :: rest =>
    if kind = .dir ∨ kind = .other then survey db layer pkg replaces stat rest
    else match db.ownerOf path with
      | none =>
        if stat (targetPath layer path) then (survey db layer pkg replaces stat rest).map fun r => (r.1, path :: r.2)
        else survey db layer pkg replaces stat rest
      | some owner =>
        if owner.name = pkg.name then survey db layer pkg replaces stat rest
        else if mayTakeOver replaces pkg owner then
          (survey db layer pkg replaces stat rest).map fun r => ((owner.name, path) :: r.1, r.2)
        else .error (.owned path owner.name)

/-- The second reading under way. -/
structure Extract where
  files : List Text
  opened : Option Text
  failure : Option InstallError
  events : List Event
  tick : Nat
  deriving DecidableEq

namespace Extract

def start : Extract := ⟨[], none, none, [], 0⟩

variable (x : Extract)

def fail (e : InstallError) : Extract × Bool := ({ x with failure := some e }, false)

/-- `write_file` of an entry. -/
def writeFile (path dest : Text) (e : InstallError) : Answer → Extract × Bool
  | .refused => x.fail e
  | .cut => fail { x with events := x.events ++ [.write dest] } e
  | .done => ({ x with events := x.events ++ [.write dest], files := x.files ++ [path] }, true)

/-- The closure `write`. -/
def write (w : World) (layer : Text) (native : List Text) (x : Extract) (event : TarEvent) : Extract × Bool :=
  let answer := w.answer x.tick
  let linked := w.linked x.tick
  let room := w.room x.tick
  let x := { x with tick := x.tick + 1 }
  match event with
  | .begins entry =>
    let dest := targetPath layer entry.path
    if entry.kind ≠ .dir ∧ entry.path ∈ native then (x, true)
    else match entry.kind with
      | .dir => ({ x with events := x.events ++ [.mkdir dest] }, true)
      | .file =>
        if entry.path ∈ protectedPaths then (x, true)
        else if answer = .refused then x.fail (.cannotWrite dest)
        else ({ x with opened := some dest, events := x.events ++ [.write dest], files := x.files ++ [entry.path] }, true)
      | .symlink _ => x.writeFile entry.path dest (.cannotLink dest) answer
      | .hardlink target =>
        if linked then x.writeFile entry.path dest (.cannotWrite dest) answer else x.fail (.linkMissing target)
      | .other => (x, true)
  | .data chunk =>
    match x.opened with
    | some dest => if chunk = [] ∨ room = true then (x, true) else x.fail (.diskFull dest)
    | none => (x, true)
  | .ends => ({ x with opened := none }, true)

end Extract

/-- The second reading, and its outcome: what the closure failed with comes first. -/
def extract (tools : Tools) (w : World) (layer : Text) (native : List Text) (data : List UInt8) :
    Extract × Except InstallError Unit :=
  let r := streamInto tools (Extract.write w layer native) .start data
  (r.1, match r.1.failure with
    | some e => .error e
    | none => r.2)

/-- The files of the version before that the new one does not have. -/
def sweep (layer : Text) (previous : Option Installed) (files : List Text) : List Event :=
  match previous with
  | some old => (old.files.filter (· ∉ files)).map fun f => .unlink (targetPath layer f)
  | none => []

def preScript (pkg : Pkg) : Option Installed → Event
  | some old => .script pkg.name ".pre-upgrade".toList [pkg.version, old.version]
  | none => .script pkg.name ".pre-install".toList [pkg.version]

def postScript (pkg : Pkg) : Option Installed → Event
  | some old => .script pkg.name ".post-upgrade".toList [pkg.version, old.version]
  | none => .script pkg.name ".post-install".toList [pkg.version]

/-- The record of the package that has been installed. -/
def record (repo : Repo) (pkg : Pkg) (a : Archive) (files : List Text) : Installed :=
  ⟨pkg.name, pkg.version, repo.name, pkg.description, pkg.depends, pkg.provides, files, a.scripts, a.triggers, repo.layer⟩

/-- What follows the survey: the files are taken over, the archive is unpacked and the package is
    recorded. -/
def unpack (tools : Tools) (w : World) (repo : Repo) (pkg : Pkg) (a : Archive) (taken : List (Text × Text))
    (native : List Text) (db : Db) : Except InstallError Unit × Db × List Event :=
  let previous := db.find pkg.name
  let db := db.takeOver taken
  let r := extract tools w repo.layer native a.data
  let events := [.store pkg.name a.scripts, preScript pkg previous] ++ r.1.events
  match r.2 with
  | .error e => (.error e, db, events)
  | .ok () =>
    let rest := db.erase pkg.name
    (if w.saved then .ok () else .error .save,
      { rest with packages := rest.packages ++ [record repo pkg a r.1.files] },
      events ++ sweep repo.layer previous r.1.files ++ [postScript pkg previous])

/-- `install_one`, of the package `pkg` of the catalog from its repository `repo`. -/
def installOne (tools : Tools) (w : World) (repo : Repo) (pkg : Pkg) (db : Db) :
    Except InstallError Unit × Db × List Event :=
  let d := Db.displaceAll (db.displacedBy pkg.name pkg.provides) db
  match w.download with
  | .error e => (.error (.fetch e), d)
  | .ok bytes =>
    match openArchive tools pkg bytes with
    | .error e => (.error e, d)
    | .ok a =>
      match survey d.1 repo.layer pkg a.replaces w.stat a.listing with
      | .error e => (.error e, d)
      | .ok (taken, native) =>
        let r := unpack tools w repo pkg a taken native d.1
        (r.1, r.2.1, d.2 ++ r.2.2)

end HamixOS.Pantry
