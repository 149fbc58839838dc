import JsonIntake.Device
import JsonIntake.FileTree
import JsonIntake.Source.Compressed

/-!
# Sources

One input of a read: a file, bytes in host memory, a buffer on the device, or
a compressed region.
-/

namespace JsonIntake

/-- A file that was opened when it had `size` bytes.  Reads get what the file
holds at that time, but nothing beyond the recorded size. -/
structure FileSource where
  path : String
  size : Nat
  content : List UInt8
deriving DecidableEq

inductive Source where
  | file (source : FileSource)
  | host (bytes : List UInt8)
  | device (buffer : Buffer)
  | compressed (source : CompressedSource)
deriving DecidableEq

namespace FileSource

def openIn (tree : FileTree) (path : String) : Except Failure FileSource :=
  match tree.resolve path with
  | .ok (_, .file content) => .ok ⟨path, content.length, content⟩
  | .ok (_, .directory) => .error (.file .isDirectory)
  | .error fault => .error (.file fault)

/-- The same open file after the tree has changed. -/
def refresh (tree : FileTree) (source : FileSource) : FileSource :=
  match tree.resolve source.path with
  | .ok (_, .file content) => { source with content }
  | _ => source

def read (source : FileSource) (offset size : Nat) :
    Except Failure (List UInt8) := do
  let count ← clampRead offset size source.size
  .ok ((source.content.drop offset).take count)

end FileSource

namespace Source

/-- A source over a file of the tree. -/
def openFile (tree : FileTree) (path : String) : Except Failure Source := do
  let source ← FileSource.openIn tree path
  .ok (.file source)

def refresh (tree : FileTree) : Source → Source
  | .file source => .file (source.refresh tree)
  | source => source

/-- Size in bytes, or the current estimate of it. -/
def size : Source → Nat
  | .file source => source.size
  | .host bytes => bytes.length
  | .device buffer => buffer.size
  | .compressed source => source.size

def isSizeExact : Source → Bool
  | .compressed source => source.exact
  | _ => true

/-- The exact size; an estimate is replaced by decompressing. -/
def exactSize : Source → Except Failure Nat × Source
  | .compressed source =>
    if source.exact then (.ok source.size, .compressed source)
    else
      let (result, source) := source.materialize
      (result, .compressed source)
  | source => (.ok source.size, source)

def supportsDeviceRead : Source → Bool
  | .device _ => true
  | _ => false

def compression : Source → Compression
  | .compressed source => source.kind
  | _ => .none

/-- Name of the variant. -/
def label : Source → String
  | .file _ => "file"
  | .host _ => "host"
  | .device _ => "device"
  | .compressed _ => "compressed"

def path? : Source → Option String
  | .file source => some source.path
  | _ => none

/-- Read up to `size` bytes from `offset` into host memory. -/
def hostRead (source : Source) (offset size : Nat) :
    Except Failure ReadBytes × Source :=
  match source with
  | .file opened =>
    ((opened.read offset size).map fun bytes => ⟨bytes, true⟩, source)
  | .host bytes => (sliceRead bytes offset size false, source)
  | .device buffer => (sliceRead buffer.toList offset size true, source)
  | .compressed region =>
    let (result, region) := region.hostRead offset size
    (result, .compressed region)

/-- Append up to `size` bytes from `offset` to a buffer on the device; only
device sources can do that. -/
def deviceRead (source : Source) (offset size : Nat) (target : Buffer) :
    Except Failure (Nat × Buffer) :=
  match source with
  | .device buffer => do
    let read ← sliceRead buffer.toList offset size true
    .ok (read.bytes.length, target.append read.bytes)
  | other => .error (.invalidOptions (.noDeviceReads other.label))

/-- Append up to `size` bytes from `offset` to a buffer in whatever way the
source allows; the result is their number. -/
def copyTo (source : Source) (offset size : Nat) (target : Buffer) :
    Except Failure (Nat × Buffer) × Source :=
  if source.supportsDeviceRead then
    (source.deviceRead offset size target, source)
  else
    let (result, source) := source.hostRead offset size
    (result.map fun read => (read.bytes.length, target.append read.bytes),
      source)

/-- Number of leading bytes that are looked at to find out a format. -/
def magicLength : Nat := 16

/-- The compression of a source, by the ending of a file's path or else by
its first bytes. -/
def detect? : Source → Option Compression
  | .file source =>
    (Compression.ofPath? source.path).orElse fun _ =>
      Compression.ofMagic? (source.content.take magicLength)
  | .host bytes => Compression.ofMagic? (bytes.take magicLength)
  | .device buffer => Compression.ofMagic? (buffer.toList.take magicLength)
  | .compressed source => some source.kind

/-- The bytes that are wrapped when a source turns out to be compressed. -/
def regionBytes : Source → Except Failure (List UInt8)
  | .file source => source.read 0 source.size
  | .host bytes => .ok bytes
  | .device buffer => .ok buffer.toList
  | .compressed source => .ok source.region

/-- Present a source as the content it compresses.  A source that is
compressed already stays as it is. -/
def withCompression (source : Source) (kind : Compression) (ratio : Nat) :
    Except Failure Source :=
  let resolved :=
    match kind with
    | .none => Option.none
    | .auto => source.detect?
    | explicit => some explicit
  match resolved, source with
  | Option.none, _ => .ok source
  | some _, .compressed _ => .ok source
  | some kind, _ => do
    let region ← source.regionBytes
    let wrapped ← CompressedSource.make region kind ratio
    .ok (.compressed wrapped)

end Source

end JsonIntake
