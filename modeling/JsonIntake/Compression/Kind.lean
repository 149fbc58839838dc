import JsonIntake.Size

/-!
# Compression kinds

Every compression format has one row in the codec table: the file extensions
and leading bytes it is recognised by, and how a source of that format gives
its size before anything is decompressed.
-/

namespace JsonIntake

/-- How the bytes of a source are compressed, or that this is to be found
out. -/
inductive Compression where
  | none
  | auto
  | gzip
  | zip
  | snappy
  | zstd
  | bzip2
  | xz
deriving DecidableEq, Repr

/-- How a compressed source gives its size before it is decompressed. -/
inductive SizeStrategy where
  /-- A multiple of the compressed size, until the content is needed. -/
  | estimate
  /-- The exact size, by decompressing at once. -/
  | eager
deriving DecidableEq, Repr

/-- One row of the codec table. -/
structure Codec where
  kind : Compression
  name : String
  /-- In lower case, with the leading dot. -/
  extensions : List String
  magic : Option (List UInt8)
  strategy : SizeStrategy

namespace Codec

/-- The codec table, in the order in which formats are tried. -/
def all : List Codec :=
  [{ kind := .gzip
     name := "gzip"
     extensions := [".gz", ".gzip"]
     magic := some [0x1f, 0x8b]
     strategy := .estimate },
   { kind := .zip
     name := "zip"
     extensions := [".zip"]
     magic := some [0x50, 0x4b, 0x03, 0x04]
     strategy := .estimate },
   { kind := .snappy
     name := "snappy"
     extensions := [".snappy"]
     magic := Option.none
     strategy := .estimate },
   { kind := .zstd
     name := "zstd"
     extensions := [".zst", ".zstd"]
     magic := some [0x28, 0xb5, 0x2f, 0xfd]
     strategy := .eager },
   { kind := .bzip2
     name := "bzip2"
     extensions := [".bz2", ".bzip2"]
     magic := some [0x42, 0x5a, 0x68]
     strategy := .eager },
   { kind := .xz
     name := "xz"
     extensions := [".xz"]
     magic := some [0xfd, 0x37, 0x7a, 0x58, 0x5a, 0x00]
     strategy := .eager }]

end Codec

namespace Compression

def all : List Compression :=
  [.none, .auto, .gzip, .zip, .snappy, .zstd, .bzip2, .xz]

/-- The name of a kind as it stands in messages. -/
def label : Compression → String
  | .none => "None"
  | .auto => "Auto"
  | .gzip => "Gzip"
  | .zip => "Zip"
  | .snappy => "Snappy"
  | .zstd => "Zstd"
  | .bzip2 => "Bzip2"
  | .xz => "Xz"

/-- The name of a kind as it stands in option files. -/
def keyword : Compression → String
  | .none => "none"
  | .auto => "auto"
  | .gzip => "gzip"
  | .zip => "zip"
  | .snappy => "snappy"
  | .zstd => "zstd"
  | .bzip2 => "bzip2"
  | .xz => "xz"

def ofKeyword? (word : String) : Option Compression :=
  all.find? fun kind => kind.keyword == word

/-- The codec table row of a kind, if it is a format of its own. -/
def codec? (kind : Compression) : Option Codec :=
  Codec.all.find? fun codec => codec.kind == kind

/-- Without a row in the table the size is known from the start. -/
def sizeStrategy (kind : Compression) : SizeStrategy :=
  match kind.codec? with
  | some codec => codec.strategy
  | Option.none => .eager

def isCompressed : Compression → Bool
  | .none | .auto => false
  | _ => true

/-- The kind that the ending of a path stands for.  Upper and lower case are
not told apart; no letter outside ASCII has a lower case form that takes part
in an extension. -/
def ofPath? (path : String) : Option Compression :=
  let lowered := path.toLower
  (Codec.all.find? fun codec =>
    codec.extensions.any fun ending => lowered.endsWith ending).map (·.kind)

/-- The kind that the leading bytes of some data stand for. -/
def ofMagic? (head : List UInt8) : Option Compression :=
  (Codec.all.find? fun codec =>
    match codec.magic with
    | some magic => magic.isPrefixOf head
    | Option.none => false).map (·.kind)

/-- Size estimate for a region of `length` compressed bytes. -/
def estimatedSize (length ratio : Nat) : Nat := Size.mulSaturating length ratio

end Compression

end JsonIntake
