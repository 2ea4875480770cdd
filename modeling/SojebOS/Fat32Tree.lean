import SojebOS.Fat32Files

/-!
# Directories: creating, removing and changing

A new directory is one cluster that starts with `.` and `..`. The search for a slot of its
parent looks at the same cluster again and again until it finds one. A path is resolved
component by component, and a first cluster of 0 stands for the root.
-/
namespace Fat32Tree

open ByteMemory MachineWord WhileLoop LinkedChain Fat32Disk Fat32Directory Fat32Files

/-- What the directory commands print before they return. -/
inductive Reply where
  | alreadyExists
  | diskFull
  | directoryCreated
  | targetIsFile
  | directoryNotEmpty
  | directoryDeleted
  | noSuchDirectory
  deriving DecidableEq, Repr

def Reply.text : Reply → String
  | .alreadyExists => "Directory or file already exists"
  | .diskFull => "Error: Disk Full.\n"
  | .directoryCreated => "Directory created successfully.\n"
  | .targetIsFile => "Error: Target path is a file, not a directory.\n"
  | .directoryNotEmpty => "Error: Directory is not empty.\n"
  | .directoryDeleted => "Directory deleted successfully.\n"
  | .noSuchDirectory => "cd: No such file or directory.\n"

def dotName : List UInt8 := pad 11 [dot]
def dotDotName : List UInt8 := pad 11 [dot, dot]

/-- The first sector of a new directory. A parent that is the root is written as 0. -/
def dotEntries (fs : Fat32) (currentCluster parentCluster : ℕ) : Bytes :=
  let pCluster := if parentCluster = fs.rootCluster then 0 else parentCluster
  fillEntry (fillEntry (fun _ => 0) 0 dotName attrDirectory currentCluster 0)
    32 dotDotName attrDirectory pCluster 0

def zeroSector (startSector : ℕ) (d : Bytes) (s : ℕ) : Bytes :=
  diskWrite d (u32 (startSector + s)) fun _ => 0

def initDirectoryCluster (fs : Fat32) (d : Bytes) (currentCluster parentCluster : ℕ) :
    Bytes :=
  let startSector := clusterToSector fs currentCluster
  (List.range' 1 (fs.sectorsPerCluster - 1)).foldl (zeroSector startSector)
    (diskWrite d startSector (dotEntries fs currentCluster parentCluster))

/-- The search for a slot of the parent. The loop does not follow the parent's chain, so
it goes round for ever when the first cluster is full. -/
def findParentSlot (fs : Fat32) (d : Bytes) (dirCluster : ℕ) : Option (Option (ℕ × ℕ)) :=
  run (walkBody id offChain fun c => scanCluster fs (clusterToSector fs c) (freeSlotVisit d))
    wordCount dirCluster

def fat32CreateDirectory (fs : Fat32) (d : Bytes) (currentDirCluster : ℕ)
    (dirname : List UInt8) : Option (Bytes × Option Reply) := do
  let found ← fat32FindFile fs d currentDirCluster dirname
  if found.isSome then return (d, some .alreadyExists)
  let newCluster := fat32FindFreeCluster fs d
  if newCluster = 0x0FFFFFFF then return (d, some .diskFull)
  let d := fat32SetNextCluster fs d newCluster 0x0FFFFFFF
  let d := initDirectoryCluster fs d newCluster currentDirCluster
  let hit ← findParentSlot fs d currentDirCluster
  match hit with
  | some slot =>
    return (storeEntry d slot (formatFilename dirname) attrDirectory newCluster 0,
      some .directoryCreated)
  | none => return (d, none)

/-- A slot that keeps a directory from being empty. The end mark does not stop the scan. -/
def occupiedVisit (d : Bytes) (sector i : ℕ) : Option Unit :=
  let buffer := diskRead d sector
  let e := readEntry buffer (32 * i)
  if buffer (32 * i) = 0 then none
  else if buffer (32 * i) = deletedMark then none
  else if e.attr = attrLongName then none
  else if e.name.getD 0 0 = dot ∧
      (e.name.getD 1 0 = space ∨ e.name.getD 1 0 = dot ∧ e.name.getD 2 0 = space) then none
  else some ()

def isDirectoryEmpty (fs : Fat32) (d : Bytes) (dirCluster : ℕ) : Option Bool :=
  (walkDirectory fs d dirCluster (occupiedVisit d)).map Option.isNone

/-- The slot that a removal takes. Long-name slots are compared like any other. -/
def removeVisit (d : Bytes) (searchName : List UInt8) (sector i : ℕ) :
    Option (Option (ℕ × ℕ)) :=
  let buffer := diskRead d sector
  if buffer (32 * i) = 0 then some none
  else if buffer (32 * i) = deletedMark then none
  else if (readEntry buffer (32 * i)).name = searchName then some (some (sector, i))
  else none

def fat32Rmdir (fs : Fat32) (d : Bytes) (currentDirCluster : ℕ) (dirname : List UInt8) :
    Option (Bytes × Option Reply) := do
  let hit ← walkDirectory fs d currentDirCluster (removeVisit d (formatFilename dirname))
  match hit.join with
  | none => return (d, none)
  | some slot =>
    let buffer := diskRead d slot.1
    let entry := readEntry buffer (32 * slot.2)
    if ¬ entry.isDirectory then return (d, some .targetIsFile)
    let empty ← isDirectoryEmpty fs d entry.firstCluster
    if ¬ empty then return (d, some .directoryNotEmpty)
    let d₁ ← freeChain fs d entry.firstCluster
    return (markDeleted d₁ buffer slot, some .directoryDeleted)

/-- At most `n` characters up to a slash or the end, and what follows them. -/
def takeComponent : ℕ → List UInt8 → List UInt8 × List UInt8
  | 0, path => ([], path)
  | _ + 1, [] => ([], [])
  | n + 1, c :: path =>
    if c = slash ∨ c = 0 then ([], c :: path)
    else
      let p := takeComponent n path
      (c :: p.1, p.2)

def getNextComponent (path : List UInt8) : List UInt8 × List UInt8 :=
  takeComponent 127 (path.dropWhile (· = slash))

/-- A subdirectory with the name searched for (`some (some _)`). The end mark stops the
scan of its own sector only (`some none`). -/
def componentVisit (d : Bytes) (searchName : List UInt8) (sector i : ℕ) :
    Option (Option ℕ) :=
  let buffer := diskRead d sector
  let e := readEntry buffer (32 * i)
  if buffer (32 * i) = 0 then some none
  else if buffer (32 * i) = deletedMark then none
  else if e.attr = attrLongName then none
  else if memcmp e.name searchName = 0 then
    if e.isDirectory then some (some e.firstCluster) else none
  else none

def scanForComponent (fs : Fat32) (d : Bytes) (searchName : List UInt8) (cluster : ℕ) :
    Option ℕ :=
  (List.range fs.sectorsPerCluster).findSome? fun s =>
    ((List.range 16).findSome?
      (componentVisit d searchName (u32 (clusterToSector fs cluster + s)))).join

def findComponent (fs : Fat32) (d : Bytes) (cluster : ℕ) (component : List UInt8) :
    Option (Option ℕ) :=
  run (walkBody (fat32NextCluster fs d) offChain
    (scanForComponent fs d (formatFilename component))) wordCount cluster

/-- The rounds over the components of a path, at most `n` of them. -/
def followPath (fs : Fat32) (d : Bytes) : (n : ℕ) → (cluster : ℕ) → List UInt8 → Option ℕ
  | 0, _, _ => none
  | n + 1, cluster, path =>
    if path.getD 0 0 = 0 then some cluster
    else
      let (component, rest) := getNextComponent path
      if component = [] then some cluster
      else do
        match ← findComponent fs d cluster component with
        | none => return 0xFFFFFFFF
        | some next => followPath fs d n (if next = 0 then fs.rootCluster else next) rest

/-- The cluster of the directory that a path names, or 0xFFFFFFFF. -/
def fat32GetPathCluster (fs : Fat32) (d : Bytes) (currentDirCluster : ℕ)
    (path : List UInt8) : Option ℕ :=
  if path.getD 0 0 = slash then followPath fs d (path.length + 1) fs.rootCluster path.tail
  else followPath fs d (path.length + 1) currentDirCluster path

/-- The new current directory. -/
def fat32Cd (fs : Fat32) (d : Bytes) (currentDirCluster : ℕ) (path : List UInt8) :
    Option (ℕ × Option Reply) := do
  let targetCluster ← fat32GetPathCluster fs d currentDirCluster path
  if targetCluster = 0xFFFFFFFF then return (currentDirCluster, some .noSuchDirectory)
  else return (targetCluster, none)

def dirnameVisit (fs : Fat32) (d : Bytes) (parentCluster childCluster sector i : ℕ) :
    Option (Option (List UInt8)) :=
  let buffer := diskRead d sector
  let e := readEntry buffer (32 * i)
  if buffer (32 * i) = 0 then some none
  else if buffer (32 * i) = deletedMark then none
  else if e.attr = attrLongName then none
  else if e.isDirectory then
    let entryCluster :=
      if e.firstCluster = 0 ∧ parentCluster = fs.rootCluster then fs.rootCluster
      else e.firstCluster
    if entryCluster = childCluster then some (some ((e.name.take 8).filter (· ≠ space)))
    else none
  else none

/-- Where the search for a name stops. The end marks of a chain are not among these. -/
def offNameSearch (c : ℕ) : Prop := ¬ (2 ≤ c ∧ c < 0xFFFFFFF8)

instance : DecidablePred offNameSearch := fun c =>
  inferInstanceAs (Decidable (¬ (2 ≤ c ∧ c < 0xFFFFFFF8)))

def findDirnameInParent (fs : Fat32) (d : Bytes) (parentCluster childCluster : ℕ) :
    Option (Option (List UInt8)) :=
  (run (walkBody (fat32NextCluster fs d) offNameSearch fun c =>
    scanCluster fs (clusterToSector fs c) (dirnameVisit fs d parentCluster childCluster))
    wordCount parentCluster).map Option.join

/-- The clusters on the way up to the root, at most `n`, or `none` where a `..` is missing. -/
def climb (fs : Fat32) (d : Bytes) : (n : ℕ) → (walkCluster : ℕ) → Option (List ℕ)
  | 0, _ => some []
  | n + 1, walkCluster =>
    if walkCluster = fs.rootCluster then some []
    else
      let e := readEntry (diskRead d (clusterToSector fs walkCluster)) 32
      if e.name.getD 0 0 = dot ∧ e.name.getD 1 0 = dot then
        let parent := if e.firstCluster = 0 then fs.rootCluster else e.firstCluster
        if parent = walkCluster then some [walkCluster]
        else (climb fs d n parent).map (walkCluster :: ·)
      else none

def orphanName : List UInt8 := [0x3F, 0x3F, 0x3F]
def newline : UInt8 := 0x0A

def printNames (fs : Fat32) (d : Bytes) : (parent : ℕ) → List ℕ → Option (List UInt8)
  | _, [] => some []
  | parent, child :: children => do
    let found ← findDirnameInParent fs d parent child
    let name := match found with
      | some name => name.takeWhile (· ≠ 0)
      | none => orphanName
    let rest ← printNames fs d child children
    return slash :: name ++ rest

/-- What `fat32_pwd` prints: a path and a newline, or an error message. -/
def fat32Pwd (fs : Fat32) (d : Bytes) (currentDirCluster : ℕ) :
    Option (Except String (List UInt8)) :=
  if currentDirCluster = fs.rootCluster then some (.ok [slash, newline])
  else
    match climb fs d 16 currentDirCluster with
    | none => some (.error "Error: Directory structure corrupted ('..' missing).\n")
    | some clusterStack => do
      let path ← printNames fs d fs.rootCluster clusterStack.reverse
      return .ok (path ++ [newline])

end Fat32Tree
