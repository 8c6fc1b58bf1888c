import Nachos.Filesys.Allocation
import Nachos.Filesys.Directory

/-!
# The file system

`FileSystem` of `filesys.cc`: the free map and the directory are files with their headers in
the sectors 0 and 1, and every operation fetches both, changes them in memory and writes them
back. What `new` leaves in the memory that an operation gets is an argument: `raw n` is the `n`-th
block.
-/

namespace Nachos

open Lib

namespace Filesys

def FreeMapSector : ℕ := 0

def DirectorySector : ℕ := 1

def FreeMapFileSize : ℕ := NumSectors / 8

def NumDirEntries : ℕ := 10

def DirectoryFileSize : ℕ := entrySize * NumDirEntries

structure FileSystem where
  disk : Disk
  freeMapFile : OpenFile
  directoryFile : OpenFile

/-- `ASSERT(condition)`. -/
def assert (condition : Bool) : Except Fault Unit := if condition then .ok () else .error .assertion

theorem ok_bind {α β : Type} (a : α) (f : α → Except Fault β) :
    ((Except.ok a : Except Fault α) >>= f) = f a := rfl

/-- `new BitMap(NumSectors)`. -/
def newMap (raw : ℕ → Byte) : Except Fault BitMap :=
  BitMap.new NumSectors fun i => wordAt raw (4 * i)

namespace FileSystem

/-- `FileSystem::FileSystem(TRUE)`, on a disk that holds anything. -/
def format (disk : Disk) (raw : ℕ → ℕ → Byte) : Except Fault FileSystem := do
  let freeMap ← newMap (raw 0)
  let directory := Directory.new NumDirEntries (raw 1)
  let freeMap ← freeMap.mark FreeMapSector
  let freeMap ← freeMap.mark DirectorySector
  let (allocated, mapHdr, freeMap) ← (FileHeader.ofBytes (raw 2)).allocate freeMap FreeMapFileSize
  assert allocated
  let (allocated, dirHdr, freeMap) ← (FileHeader.ofBytes (raw 3)).allocate freeMap DirectoryFileSize
  assert allocated
  let disk ← mapHdr.writeBack disk FreeMapSector
  let disk ← dirHdr.writeBack disk DirectorySector
  let freeMapFile ← OpenFile.new disk FreeMapSector
  let directoryFile ← OpenFile.new disk DirectorySector
  let disk ← freeMap.writeBack freeMapFile disk (raw 4)
  let disk ← directory.writeBack directoryFile disk (raw 5)
  return ⟨disk, freeMapFile, directoryFile⟩

/-- `FileSystem::Create`. -/
def create (fs : FileSystem) (name : ℕ → Byte) (initialSize : ℤ) (raw : ℕ → ℕ → Byte) :
    Except Fault (Bool × FileSystem) := do
  let directory ← (Directory.new NumDirEntries (raw 0)).fetchFrom fs.directoryFile fs.disk
  if directory.find name ≠ -1 then
    return (false, fs)
  else
    let freeMap ← newMap (raw 1)
    let freeMap ← freeMap.fetchFrom fs.freeMapFile fs.disk
    let (sector, freeMap) ← freeMap.find
    if sector = -1 then
      return (false, fs)
    else
      let (added, directory) := directory.add name sector
      if added = false then
        return (false, fs)
      else
        let (allocated, hdr, freeMap) ← (FileHeader.ofBytes (raw 2)).allocate freeMap initialSize
        if allocated = false then
          return (false, fs)
        else
          let disk ← hdr.writeBack fs.disk sector
          let disk ← directory.writeBack fs.directoryFile disk (raw 3)
          let disk ← freeMap.writeBack fs.freeMapFile disk (raw 4)
          return (true, { fs with disk := disk })

/-- `FileSystem::Open`. -/
def openFile (fs : FileSystem) (name : ℕ → Byte) (raw : ℕ → ℕ → Byte) :
    Except Fault (Option OpenFile) := do
  let directory ← (Directory.new NumDirEntries (raw 0)).fetchFrom fs.directoryFile fs.disk
  let sector := directory.find name
  if sector ≥ 0 then
    let openFile ← OpenFile.new fs.disk sector
    return some openFile
  else
    return none

/-- `FileSystem::Remove`. -/
def remove (fs : FileSystem) (name : ℕ → Byte) (raw : ℕ → ℕ → Byte) :
    Except Fault (Bool × FileSystem) := do
  let directory ← (Directory.new NumDirEntries (raw 0)).fetchFrom fs.directoryFile fs.disk
  let sector := directory.find name
  if sector = -1 then
    return (false, fs)
  else
    let fileHdr ← FileHeader.fetchFrom fs.disk sector
    let freeMap ← newMap (raw 1)
    let freeMap ← freeMap.fetchFrom fs.freeMapFile fs.disk
    let freeMap ← fileHdr.deallocate freeMap
    let freeMap ← freeMap.clear sector
    let (_, directory) := directory.remove name
    let disk ← freeMap.writeBack fs.freeMapFile fs.disk (raw 2)
    let disk ← directory.writeBack fs.directoryFile disk (raw 3)
    return (true, { fs with disk := disk })

/-- The calls of `Create` and `Remove`. -/
inductive Op where
  | create (name : ℕ → Byte) (initialSize : ℤ) (raw : ℕ → ℕ → Byte)
  | remove (name : ℕ → Byte) (raw : ℕ → ℕ → Byte)

/-- A call, with what it returns. -/
def call (fs : FileSystem) : Op → Except Fault (Bool × FileSystem)
  | .create name initialSize raw => fs.create name initialSize raw
  | .remove name raw => fs.remove name raw

def step (fs : FileSystem) (op : Op) : Except Fault FileSystem :=
  match fs.call op with
  | .error e => .error e
  | .ok (_, fs') => .ok fs'

/-- The size of a new file is one that a header can list the sectors of. -/
def Op.Sized : Op → Prop
  | .create _ initialSize _ => 0 ≤ initialSize ∧ initialSize ≤ MaxFileSize
  | .remove _ _ => True

end FileSystem

end Filesys

end Nachos
