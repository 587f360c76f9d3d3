import Handheld.Console
import Handheld.Settings

/-!
# Loading a console

A console for settings: the cartridge is read first, then the boot image, and
each image that was read is remarked upon. Only then is room made for the trace,
if there can be enough of it. Loading is laid out as a plan, in
which reading and speaking alternate: what is on the disk may change as
something is said, since the journal is on it too.
-/

namespace Handheld

def Image.load (disk : Disk) (path : String) : Except SetupError Image :=
  match disk path with
  | .ok image => .ok image
  | .error reason => .error (.image path reason)

namespace Console

def cartridgeRemark (path : String) (image : Image) : Journal.Record :=
  let size := s!"({image.size} bytes)"
  ⟨.info, .console,
    match Image.title? image with
    | some title => s!"loaded ROM {path} \"{title}\" {size}"
    | none => s!"loaded ROM {path} {size}"⟩

def bootRemark (path : String) (image : Image) : Journal.Record :=
  ⟨.info, .console, s!"loaded boot ROM {path} ({image.size} bytes)"⟩

def ofImages? (s : Settings) (cartridge : Image) (boot : Option Image) : Option Console :=
  (Processor.new? (.new cartridge boot) s.traceCapacity).map fun p =>
    ⟨{ p with debugging := s.debugging }, s.viewport.clamped⟩

/-- A load under way: something to say, an image to read, or the outcome. -/
inductive Loading where
  | say (r : Journal.Record) (rest : Loading)
  | read (path : String) (rest : Image → Loading)
  | done (c : Console)
  | refused (e : SetupError)

/-- Carries a load through, on the disk as it is after what was said. Loading
ends when an image cannot be read. -/
def Loading.run (disk : List Journal.Record → Disk) :
    List Journal.Record → Loading → Except SetupError Console × List Journal.Record
  | said, .say r rest => run disk (said ++ [r]) rest
  | said, .read path rest =>
    match Image.load (disk said) path with
    | .ok image => run disk said (rest image)
    | .error e => (.error e, said)
  | said, .done c => (.ok c, said)
  | said, .refused e => (.error e, said)

def assembled (s : Settings) (cartridge : Image) (boot : Option Image) : Loading :=
  match ofImages? s cartridge boot with
  | some c => .done c
  | none => .refused .noRoom

def loadingBoot (s : Settings) (cartridge : Image) : Loading :=
  match s.boot with
  | none => assembled s cartridge none
  | some path => .read path fun boot =>
    .say (bootRemark path boot) (assembled s cartridge (some boot))

def loading (s : Settings) : Loading :=
  match s.requireCartridge with
  | .error e => .refused e
  | .ok path => .read path fun cartridge =>
    .say (cartridgeRemark path cartridge) (loadingBoot s cartridge)

/-- The console that settings ask for, and what was said while it was loaded
from a disk that stays as it is. -/
def load (disk : Disk) (s : Settings) : Except SetupError Console × List Journal.Record :=
  (loading s).run (fun _ => disk) []

def ofSettings (disk : Disk) (s : Settings) : Except SetupError Console := (load disk s).1

end Console

end Handheld
