import LineScope.Config.Path
import LineScope.Config.Settings

/-! Finding the settings for a place in a file system. -/
namespace LineScope

inductive Content where
  | text (text : String)
  /-- Bytes that are no text. -/
  | unreadable
  deriving DecidableEq, Repr

def Content.ofBytes (bytes : ByteArray) : Content :=
  match String.fromUTF8? bytes with
  | some decoded => .text decoded
  | none => .unreadable

structure FileSystem where
  content? : Path → Option Content

inductive ConfigError where
  | malformed
  | unreadable (path : Path)
  deriving DecidableEq, Repr

structure Config where
  settings : Settings
  /-- The file that the settings come from, if it is one. -/
  origin : Option Path
  deriving DecidableEq, Repr

namespace Config

def default : Config := ⟨.default, none⟩

/-- The settings of a document; one without a section for us leaves the defaults. -/
def parse (text : String) : Except ConfigError Config :=
  match Sections.parse? text with
  | none => .error .malformed
  | some sections => .ok ⟨sections.chosen?.getD .default, none⟩

abbrev Reader := String → Option Sections

def readSections (reader : Reader) (path : Path) : Content → Except ConfigError Sections
  | .unreadable => .error (.unreadable path)
  | .text text =>
    match reader text with
    | none => .error .malformed
    | some sections => .ok sections

def dedicatedName : String := ".incrfmt.toml"

def sharedName : String := "pyproject.toml"

def fromDedicated (reader : Reader) (path : Path) (content : Content) :
    Except ConfigError Config :=
  (readSections reader path content).map fun sections => ⟨sections.chosen?.getD .default, some path⟩

/-- A shared file decides if it has a section for us, or if it cannot be read. -/
def fromShared? (reader : Reader) (path : Path) (content : Content) :
    Option (Except ConfigError Config) :=
  match readSections reader path content with
  | .error e => some (.error e)
  | .ok sections => sections.tool.map fun settings => .ok ⟨settings, some path⟩

/-- What a directory decides; a dedicated file there comes before a shared one. -/
def inDirectory? (reader : Reader) (files : FileSystem) (directory : Path) :
    Option (Except ConfigError Config) :=
  match files.content? (directory.child dedicatedName) with
  | some content => some (fromDedicated reader (directory.child dedicatedName) content)
  | none =>
    match files.content? (directory.child sharedName) with
    | some content => fromShared? reader (directory.child sharedName) content
    | none => none

/-- The directory to start in: a file stands for the one it is in. -/
def startDirectory (files : FileSystem) (start : Path) : Path :=
  if (files.content? start).isSome then start.parent else start

/-- The first directory that decides, from the start upwards; the defaults if none does. -/
def discoverWith (reader : Reader) (files : FileSystem) (start : Path) :
    Except ConfigError Config :=
  ((startDirectory files start).upward.findSome? (inDirectory? reader files)).getD (.ok .default)

def discover (files : FileSystem) (start : Path) : Except ConfigError Config :=
  discoverWith Sections.parse? files start

end Config

end LineScope
