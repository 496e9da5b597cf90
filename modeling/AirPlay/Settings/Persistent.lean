import Mathlib.Algebra.Ring.Int.Defs
import Mathlib.Algebra.GroupWithZero.Nat
import AirPlay.Library.Text
import AirPlay.Settings.ReceiverName

/-! The settings file.

One line a setting, key and value with an equals sign between. A reader takes what it
understands and leaves the rest at its default; a writer puts down every setting, in a file
beside the old one that then takes its place. The file is a text: where the platform ends
lines its own way, the stream turns them round. -/
namespace AirPlay.Settings
open Bytes

/-- The settings of the window and of recordings, with the defaults. -/
@[ext] structure UiPreferences where
  diagnostics : Bool := false
  windowPlacementValid : Bool := false
  windowX : Int := 0
  windowY : Int := 0
  windowWidth : Int := 1220
  windowHeight : Int := 800
  windowMaximized : Bool := false
  recordingDirectory : Bytes := []
  recordingCodec : Int := 0
  recordingEncoder : Int := 0
  recordingBitrate : Int := 8
  deriving DecidableEq

/-- The settings that are kept, with the defaults. -/
@[ext] structure PersistentSettings where
  receiverName : Bytes := bytes "AirPlay-Windows"
  mirrorWidth : Int := 0
  mirrorHeight : Int := 0
  hevcEnabled : Bool := true
  maxFps : Int := 60
  refreshRate : Int := 60
  mirrorHwaccel : Bool := true
  vsyncEnabled : Bool := true
  fullscreen : Bool := false
  chromeless : Bool := false
  videoRotation : Int := -1
  ui : UiPreferences := {}
  deriving DecidableEq

/-! ### The settings, one by one -/

/-- A line of the file. -/
inductive Setting
  | receiverName | mirrorWidth | mirrorHeight | hevcEnabled | maxFps | refreshRate
  | mirrorHwaccel | vsyncEnabled | fullscreen | chromeless | videoRotation | diagnostics
  | windowPlacementValid | windowMaximized | windowX | windowY | windowWidth | windowHeight
  | recordingDirectory | recordingCodec | recordingEncoder | recordingBitrate
  deriving DecidableEq

namespace Setting

/-- In the order in which a reader compares their keys. -/
def all : List Setting :=
  [receiverName, mirrorWidth, mirrorHeight, hevcEnabled, maxFps, refreshRate, mirrorHwaccel,
    vsyncEnabled, fullscreen, chromeless, videoRotation, diagnostics, windowPlacementValid,
    windowMaximized, windowX, windowY, windowWidth, windowHeight, recordingDirectory,
    recordingCodec, recordingEncoder, recordingBitrate]

def key : Setting → Bytes
  | receiverName => bytes "receiver_name"
  | mirrorWidth => bytes "mirror_width"
  | mirrorHeight => bytes "mirror_height"
  | hevcEnabled => bytes "hevc_enabled"
  | maxFps => bytes "max_fps"
  | refreshRate => bytes "refresh_rate"
  | mirrorHwaccel => bytes "mirror_hwaccel"
  | vsyncEnabled => bytes "vsync_enabled"
  | fullscreen => bytes "fullscreen"
  | chromeless => bytes "chromeless"
  | videoRotation => bytes "video_rotation"
  | diagnostics => bytes "diagnostics"
  | windowPlacementValid => bytes "window_placement_valid"
  | windowMaximized => bytes "window_maximized"
  | windowX => bytes "window_x"
  | windowY => bytes "window_y"
  | windowWidth => bytes "window_width"
  | windowHeight => bytes "window_height"
  | recordingDirectory => bytes "recording_directory"
  | recordingCodec => bytes "recording_codec"
  | recordingEncoder => bytes "recording_encoder"
  | recordingBitrate => bytes "recording_bitrate"

def Value : Setting → Type
  | receiverName | recordingDirectory => Bytes
  | hevcEnabled | mirrorHwaccel | vsyncEnabled | fullscreen | chromeless | diagnostics
  | windowPlacementValid | windowMaximized => Bool
  | mirrorWidth | mirrorHeight | maxFps | refreshRate | videoRotation | windowX | windowY
  | windowWidth | windowHeight | recordingCodec | recordingEncoder | recordingBitrate => Int

def get : (k : Setting) → PersistentSettings → k.Value
  | receiverName, s => s.receiverName
  | mirrorWidth, s => s.mirrorWidth
  | mirrorHeight, s => s.mirrorHeight
  | hevcEnabled, s => s.hevcEnabled
  | maxFps, s => s.maxFps
  | refreshRate, s => s.refreshRate
  | mirrorHwaccel, s => s.mirrorHwaccel
  | vsyncEnabled, s => s.vsyncEnabled
  | fullscreen, s => s.fullscreen
  | chromeless, s => s.chromeless
  | videoRotation, s => s.videoRotation
  | diagnostics, s => s.ui.diagnostics
  | windowPlacementValid, s => s.ui.windowPlacementValid
  | windowMaximized, s => s.ui.windowMaximized
  | windowX, s => s.ui.windowX
  | windowY, s => s.ui.windowY
  | windowWidth, s => s.ui.windowWidth
  | windowHeight, s => s.ui.windowHeight
  | recordingDirectory, s => s.ui.recordingDirectory
  | recordingCodec, s => s.ui.recordingCodec
  | recordingEncoder, s => s.ui.recordingEncoder
  | recordingBitrate, s => s.ui.recordingBitrate

def put : (k : Setting) → k.Value → PersistentSettings → PersistentSettings
  | receiverName, v, s => {s with receiverName := v}
  | mirrorWidth, v, s => {s with mirrorWidth := v}
  | mirrorHeight, v, s => {s with mirrorHeight := v}
  | hevcEnabled, v, s => {s with hevcEnabled := v}
  | maxFps, v, s => {s with maxFps := v}
  | refreshRate, v, s => {s with refreshRate := v}
  | mirrorHwaccel, v, s => {s with mirrorHwaccel := v}
  | vsyncEnabled, v, s => {s with vsyncEnabled := v}
  | fullscreen, v, s => {s with fullscreen := v}
  | chromeless, v, s => {s with chromeless := v}
  | videoRotation, v, s => {s with videoRotation := v}
  | diagnostics, v, s => {s with ui.diagnostics := v}
  | windowPlacementValid, v, s => {s with ui.windowPlacementValid := v}
  | windowMaximized, v, s => {s with ui.windowMaximized := v}
  | windowX, v, s => {s with ui.windowX := v}
  | windowY, v, s => {s with ui.windowY := v}
  | windowWidth, v, s => {s with ui.windowWidth := v}
  | windowHeight, v, s => {s with ui.windowHeight := v}
  | recordingDirectory, v, s => {s with ui.recordingDirectory := v}
  | recordingCodec, v, s => {s with ui.recordingCodec := v}
  | recordingEncoder, v, s => {s with ui.recordingEncoder := v}
  | recordingBitrate, v, s => {s with ui.recordingBitrate := v}

end Setting

/-! ### Reading -/

/-- `std::stoi`, which throws at what is no number, or none of 32 bits. -/
def stoi (val : Bytes) : Option Int :=
  (number val).filter fun n => -2 ^ 31 ≤ n ∧ n < 2 ^ 31

def ranged (lo hi : Int) (val : Bytes) : Option Int := (stoi val).filter fun n => lo ≤ n ∧ n ≤ hi

def flag (val : Bytes) : Option Bool := (stoi val).map (· != 0)

namespace Setting

/-- The value that is taken from a line; a setting without one is left as it is. -/
def accepted : (k : Setting) → Bytes → Option k.Value
  | receiverName, val =>
    let name := normalizeReceiverName val
    if name ≠ [] then some name else none
  | mirrorWidth, val => ranged 320 7680 val
  | mirrorHeight, val => ranged 240 4320 val
  | hevcEnabled, val => flag val
  | maxFps, val => ranged 1 60 val
  | refreshRate, val => ranged 1 60 val
  | mirrorHwaccel, val => flag val
  | vsyncEnabled, val => flag val
  | fullscreen, val => flag val
  | chromeless, val => flag val
  | videoRotation, val => ranged (-1) 3 val
  | diagnostics, val => flag val
  | windowPlacementValid, val => flag val
  | windowMaximized, val => flag val
  | windowX, val => ranged (-100000) 100000 val
  | windowY, val => ranged (-100000) 100000 val
  | windowWidth, val => ranged 160 32768 val
  | windowHeight, val => ranged 160 32768 val
  | recordingDirectory, val => some val
  | recordingCodec, val => ranged 0 1 val
  | recordingEncoder, val => ranged 0 2 val
  | recordingBitrate, val => ranged 2 40 val

end Setting

/-- The key and the value of a line; empty lines and comments have none. -/
def parseLine (line : Bytes) : Option (Bytes × Bytes) :=
  if line = [] ∨ line.head? = some 35 then none else cut [61] line

def applyLine (s : PersistentSettings) (line : Bytes) : PersistentSettings :=
  match parseLine line with
  | none => s
  | some (key, val) =>
    match Setting.all.find? (·.key == key) with
    | none => s
    | some k =>
      match k.accepted val with
      | none => s
      | some v => k.put v s

/-- How the platform's text streams write their lines. -/
inductive Platform
  | posix | windows
  deriving DecidableEq

/-- What a text stream delivers of a file: on Windows CRLF is one line feed, and Ctrl-Z is
the end of the text. -/
def Platform.decode : Platform → Bytes → Bytes
  | posix, content => content
  | windows, content => decodeWindows content
where
  decodeWindows : Bytes → Bytes
    | [] => []
    | 26 :: _ => []
    | 13 :: 10 :: rest => 10 :: decodeWindows rest
    | b :: rest => b :: decodeWindows rest

def Platform.encode : Platform → Bytes → Bytes
  | posix, text => text
  | windows, text => text.flatMap fun b => if b = 10 then crlf else [b]

/-- `std::getline`, until it fails. -/
def getlines (text : Bytes) : List Bytes := (lines text).map Prod.fst

/-- The contents of the files there are. -/
abbrev Disk := Bytes → Option Bytes

def loadSettings (platform : Platform) (path : Bytes) (disk : Disk) : PersistentSettings :=
  if path = [] then {}
  else
    match disk path with
    | none => {}
    | some content => (getlines (platform.decode content)).foldl applyLine {}

/-! ### Writing -/

def shownFlag (b : Bool) : Bytes := if b then [49] else [48]

/-- What is written, in pairs of a literal and a value, each pair on a line. -/
def settingsLines (s : PersistentSettings) : List (Bytes × Bytes) :=
  [(bytes "receiver_name=", s.receiverName),
    (bytes "mirror_width=", signed s.mirrorWidth),
    (bytes "mirror_height=", signed s.mirrorHeight),
    (bytes "hevc_enabled=", shownFlag s.hevcEnabled),
    (bytes "max_fps=", signed s.maxFps),
    (bytes "refresh_rate=", signed s.refreshRate),
    (bytes "mirror_hwaccel=", shownFlag s.mirrorHwaccel),
    (bytes "vsync_enabled=", shownFlag s.vsyncEnabled),
    (bytes "fullscreen=", shownFlag s.fullscreen),
    (bytes "chromeless=", shownFlag s.chromeless),
    (bytes "video_rotation=", signed s.videoRotation),
    (bytes "diagnostics=", shownFlag s.ui.diagnostics),
    (bytes "window_placement_valid=", shownFlag s.ui.windowPlacementValid),
    (bytes "window_x=", signed s.ui.windowX),
    (bytes "window_y=", signed s.ui.windowY),
    (bytes "window_width=", signed s.ui.windowWidth),
    (bytes "window_height=", signed s.ui.windowHeight),
    (bytes "window_maximized=", shownFlag s.ui.windowMaximized),
    (bytes "recording_directory=", s.ui.recordingDirectory),
    (bytes "recording_codec=", signed s.ui.recordingCodec),
    (bytes "recording_encoder=", signed s.ui.recordingEncoder),
    (bytes "recording_bitrate=", signed s.ui.recordingBitrate)]

def settingsText (s : PersistentSettings) : Bytes :=
  (settingsLines s).flatMap fun line => line.1 ++ line.2 ++ [10]

/-- What becomes of the steps of a writer, and what is left in the file where it could not
finish. -/
structure Outcome where
  directory : Bool := true
  opened : Bool := true
  finished : Bool := true
  replaced : Bool := true
  left : Bytes := []

def saveSettings (platform : Platform) (s : PersistentSettings) (path : Bytes) (o : Outcome)
    (disk : Disk) : Bool × Disk :=
  if path = [] then (false, disk)
  else if !o.directory then (false, disk)
  else
    let temporary := path ++ bytes ".tmp"
    if !o.opened then (false, disk)
    else if !o.finished then (false, Function.update disk temporary (some o.left))
    else
      let content := platform.encode (settingsText s)
      let disk := Function.update disk temporary (some content)
      if !o.replaced then (false, disk)
      else (true, Function.update (Function.update disk temporary none) path (some content))

end AirPlay.Settings
