import HamixOS.Lib.Utf8
import HamixOS.Lib.Words

namespace HamixOS.Desktop

open Lib List Option

/-!
# The desktop protocol (`crates/hxproto`)

Requests go to the desktop server and events come back, each as a tag and its fields.

* `Request.decode_encode`, `Event.decode_encode` — a message is decoded as it was encoded, whatever
  stands behind it;
* `FixedStr.keepsLongestPrefix_new` — a string is cut at the last character that still fits.
-/

namespace Proto

/-- `TITLE_MAX`. -/
def titleMax : Nat := 110

/-- `TEXT_MAX`. -/
def textMax : Nat := 1024

/-- `MESSAGE_MAX`. -/
def messageMax : Nat := 2400

/-! ### Strings in arrays -/

/-- `Title` and `Text`: an array of `max` bytes of which the first `len` count. -/
structure FixedStr (max : Nat) where
  bytes : Bytes
  len : Nat
  length_bytes : bytes.length = max
  len_le : len ≤ max
  zeros_behind : bytes.drop len = zeros (max - len)
  deriving DecidableEq

namespace FixedStr

variable {max : Nat}

/-- The loop of `new`: characters are copied until one does not fit. -/
def fill (max : Nat) : Lib.Text → Bytes × Nat → Bytes × Nat
  | [], s => s
  | ch :: rest, (bytes, len) =>
    let encoded := String.utf8EncodeChar ch
    if max < len + encoded.length then (bytes, len)
    else fill max rest (splice bytes len encoded, len + encoded.length)

/-- The bytes that count are the start of an array that is zero behind them. -/
structure Filled (max : Nat) (held : Bytes) (s : Bytes × Nat) : Prop where
  held_le : held.length ≤ max
  bytes : s.1 = held ++ zeros (max - held.length)
  len : s.2 = held.length

/-- The longest prefix whose bytes still fit behind `used` others. -/
def fitting (max : Nat) : Lib.Text → Nat → Lib.Text
  | [], _ => []
  | ch :: rest, used =>
    if max < used + (String.utf8EncodeChar ch).length then []
    else ch :: fitting max rest (used + (String.utf8EncodeChar ch).length)

theorem Filled.put {held : Bytes} {s : Bytes × Nat} (h : Filled max held s) (encoded : Bytes)
    (hfits : s.2 + encoded.length ≤ max) :
    Filled max (held ++ encoded) (splice s.1 s.2 encoded, s.2 + encoded.length) := by
  have hlen := h.len
  refine ⟨?_, ?_, ?_⟩
  · rw [length_append]
    omega
  · dsimp only
    unfold splice
    rw [h.bytes, h.len, take_left, ← drop_drop, drop_left, length_append]
    unfold zeros
    rw [drop_replicate, Nat.sub_sub]
  · dsimp only
    rw [length_append, h.len]

theorem fill_spec (text : Lib.Text) {held : Bytes} {s : Bytes × Nat} (h : Filled max held s) :
    Filled max (held ++ Utf8.encode (fitting max text held.length)) (fill max text s) := by
  induction text generalizing held s with
  | nil =>
    rw [fitting, show Utf8.encode [] = [] from rfl, append_nil]
    exact h
  | cons ch rest ih =>
    obtain ⟨bytes, len⟩ := s
    have hlen : len = held.length := h.len
    unfold fill fitting
    dsimp only
    rw [hlen]
    split
    · rw [show Utf8.encode [] = [] from rfl, append_nil, ← hlen]
      exact h
    · rename_i hfits
      have hput := h.put (String.utf8EncodeChar ch) (by dsimp only; omega)
      rw [hlen] at hput
      have hrest := ih hput
      rw [length_append, append_assoc] at hrest
      exact hrest

theorem filled_new (max : Nat) (text : Lib.Text) :
    Filled max (Utf8.encode (fitting max text 0)) (fill max text (zeros max, 0)) :=
  have hempty : Filled max [] (zeros max, 0) := ⟨Nat.zero_le _, rfl, rfl⟩
  fill_spec text hempty

def new (max : Nat) (text : Lib.Text) : FixedStr max where
  bytes := (fill max text (zeros max, 0)).1
  len := (fill max text (zeros max, 0)).2
  length_bytes := by
    have h := filled_new max text
    have hle := h.held_le
    rw [h.bytes, List.length_append, length_zeros]
    omega
  len_le := by
    have h := filled_new max text
    rw [h.len]
    exact h.held_le
  zeros_behind := by
    have h := filled_new max text
    rw [h.bytes, h.len, List.drop_left]

variable (t : FixedStr max)

/-- The bytes that count. -/
def held : Bytes := t.bytes.take t.len

def asStr : Lib.Text := (fromUtf8 t.held).getD []

/-- A string of the bytes that were read, which is what `title` and `text` build. -/
def ofBytes (bytes : Bytes) (h : bytes.length ≤ max) : FixedStr max where
  bytes := splice (zeros max) 0 bytes
  len := bytes.length
  length_bytes := by
    rw [length_splice (by rw [length_zeros]; omega), length_zeros]
  len_le := h
  zeros_behind := by
    unfold splice zeros
    rw [List.take_zero, List.nil_append, List.drop_left, Nat.zero_add, List.drop_replicate]

@[simp] theorem length_held : t.held.length = t.len := by
  unfold held
  rw [length_take, t.length_bytes]
  exact min_eq_left t.len_le

theorem ofBytes_held (h : t.held.length ≤ max) : ofBytes t.held h = t := by
  have hbytes : splice (zeros max) 0 t.held = t.bytes := by
    unfold splice
    rw [take_zero, nil_append, zero_add, t.length_held]
    have hzeros : (zeros max).drop t.len = t.bytes.drop t.len := by
      rw [t.zeros_behind]
      exact drop_replicate
    rw [hzeros]
    exact take_append_drop _ _
  have hlen := t.length_held
  cases t with
  | mk bytes len _ _ _ =>
    unfold ofBytes
    simp only [hbytes, hlen]

theorem held_new (text : Lib.Text) : (new max text).held = Utf8.encode (fitting max text 0) := by
  have h := filled_new max text
  unfold held new
  dsimp only
  rw [h.bytes, h.len, take_left]

theorem fitting_starts (text : Lib.Text) (used : Nat) : fitting max text used <+: text := by
  induction text generalizing used with
  | nil => exact prefix_rfl
  | cons ch rest ih =>
    unfold fitting
    split
    · exact nil_prefix
    · exact cons_prefix_cons.mpr ⟨rfl, ih _⟩

theorem length_encode_cons (ch : Char) (text : Lib.Text) :
    (Utf8.encode (ch :: text)).length = (String.utf8EncodeChar ch).length + (Utf8.encode text).length := by
  unfold Utf8.encode
  rw [flatMap_cons, length_append]

/-- Any prefix that fits is a prefix of the one that is kept. -/
theorem prefix_fitting {text p : Lib.Text} {used : Nat} (hp : p <+: text) (hfits : used + (Utf8.encode p).length ≤ max) :
    p <+: fitting max text used := by
  induction text generalizing p used with
  | nil => exact hp
  | cons ch rest ih =>
    cases p with
    | nil => exact nil_prefix
    | cons c p =>
      obtain ⟨rfl, hp'⟩ := cons_prefix_cons.mp hp
      rw [length_encode_cons] at hfits
      unfold fitting
      rw [if_neg (by omega)]
      exact cons_prefix_cons.mpr ⟨rfl, ih hp' (by omega)⟩

/-- What is kept is the longest prefix of whole characters that fits, and it is read back. -/
def KeepsLongestPrefix (max : Nat) (text : Lib.Text) : Prop :=
  (new max text).asStr <+: text ∧ (Utf8.encode (new max text).asStr).length ≤ max ∧
    (new max text).held = Utf8.encode (new max text).asStr ∧
    ∀ p, p <+: text → (Utf8.encode p).length ≤ max → p <+: (new max text).asStr

theorem keepsLongestPrefix_new (max : Nat) (text : Lib.Text) : KeepsLongestPrefix max text := by
  have hstr : (new max text).asStr = fitting max text 0 := by
    unfold asStr
    rw [held_new, fromUtf8_encode]
    rfl
  unfold KeepsLongestPrefix
  rw [hstr]
  refine ⟨fitting_starts text 0, (filled_new max text).held_le, held_new text, fun p hp hfits => ?_⟩
  exact prefix_fitting hp (by rw [zero_add]; exact hfits)

end FixedStr

abbrev Title := FixedStr titleMax

abbrev Text := FixedStr textMax

example : (FixedStr.new 4 ['a', '€', 'b']).asStr = ['a', '€'] := by decide

/-! ### Messages -/

/-- An array of four `i32`. -/
structure Margins where
  first : Int32
  second : Int32
  third : Int32
  fourth : Int32
  deriving DecidableEq

/-- `as u32` of a `bool`. -/
def boolWord (b : Bool) : UInt32 := if b then 1 else 0

theorem boolWord_ne_zero (b : Bool) : (boolWord b != 0) = b := by
  cases b with
  | false => rfl
  | true => rfl

/-- One call of the writer. -/
inductive Item where
  | u32 (v : UInt32)
  | i32 (v : Int32)
  | title (t : Title)
  | text (t : Text)

structure Writer where
  buf : Bytes
  len : Nat

namespace Writer

variable (w : Writer)

/-- `copy_from_slice` into the buffer; `none` is an index out of range. -/
def copy (offset : Nat) (src : Bytes) : Option Writer :=
  if offset + src.length ≤ w.buf.length then some { w with buf := splice w.buf offset src } else none

def u32 (v : UInt32) : Option Writer := do
  let w ← w.copy w.len (le32 v)
  return { w with len := w.len + 4 }

def i32 (v : Int32) : Option Writer := w.u32 v.toUInt32

def title (t : Title) : Option Writer := do
  let w ← w.copy w.len (toLE 1 t.len)
  let w ← w.copy (w.len + 1) t.held
  return { w with len := w.len + (1 + t.len) }

def text (t : Text) : Option Writer := do
  let w ← w.copy w.len (toLE 2 t.len)
  let w ← w.copy (w.len + 2) t.held
  return { w with len := w.len + (2 + t.len) }

def put : Item → Option Writer
  | .u32 v => w.u32 v
  | .i32 v => w.i32 v
  | .title t => w.title t
  | .text t => w.text t

end Writer

structure Reader where
  buf : Bytes
  pos : Nat

namespace Reader

def u32 : StateT Reader Option UInt32 := fun r => do
  let bytes ← getRange r.buf r.pos (r.pos + 4)
  return (of32 bytes, { r with pos := r.pos + 4 })

def i32 : StateT Reader Option Int32 := do return (← u32).toInt32

/-- A length of `width` bytes, cut down to `max`, and as many bytes. -/
def fixedStr (width max : Nat) : StateT Reader Option (FixedStr max) := fun r => do
  let raw ← getRange r.buf r.pos (r.pos + width)
  let len := min (ofLE raw) max
  let bytes ← getRange r.buf (r.pos + width) (r.pos + width + len)
  if h : bytes.length ≤ max then return (FixedStr.ofBytes bytes h, { r with pos := r.pos + (width + len) })
  else none

def title : StateT Reader Option Title := fixedStr 1 titleMax

def text : StateT Reader Option Text := fixedStr 2 textMax

def margins : StateT Reader Option Margins := do return ⟨← i32, ← i32, ← i32, ← i32⟩

/-- `u32().unwrap_or(0)`. -/
def u32OrZero : StateT Reader Option UInt32 := fun r => some ((u32 r).getD (0, r))

end Reader

namespace Tag

@[match_pattern] def createWindow : UInt32 := 1
@[match_pattern] def present : UInt32 := 2
@[match_pattern] def destroy : UInt32 := 3
@[match_pattern] def setTitle : UInt32 := 4
@[match_pattern] def setCursor : UInt32 := 5
@[match_pattern] def notify : UInt32 := 6
@[match_pattern] def setWallpaper : UInt32 := 7
@[match_pattern] def setIcon : UInt32 := 8
@[match_pattern] def attach : UInt32 := 9
@[match_pattern] def sizeHints : UInt32 := 10
@[match_pattern] def chooseFile : UInt32 := 12
@[match_pattern] def pickerResult : UInt32 := 13
@[match_pattern] def setMaximized : UInt32 := 14
@[match_pattern] def createPopup : UInt32 := 15
@[match_pattern] def movePopup : UInt32 := 16
@[match_pattern] def trackPosition : UInt32 := 17
@[match_pattern] def setFrame : UInt32 := 18
@[match_pattern] def beginMove : UInt32 := 19
@[match_pattern] def beginResize : UInt32 := 20
@[match_pattern] def minimize : UInt32 := 21
@[match_pattern] def setAppId : UInt32 := 22
@[match_pattern] def hello : UInt32 := 30
@[match_pattern] def createLayer : UInt32 := 31
@[match_pattern] def configureLayer : UInt32 := 32
@[match_pattern] def subscribeToplevels : UInt32 := 33
@[match_pattern] def toplevelAction : UInt32 := 34
@[match_pattern] def setSelection : UInt32 := 35
@[match_pattern] def getSelection : UInt32 := 36
@[match_pattern] def switchWorkspace : UInt32 := 37
@[match_pattern] def moveToWorkspace : UInt32 := 38
@[match_pattern] def startDrag : UInt32 := 39
@[match_pattern] def shellAction : UInt32 := 40
@[match_pattern] def toast : UInt32 := 41
@[match_pattern] def toplevelRectangle : UInt32 := 42
@[match_pattern] def created : UInt32 := 100
@[match_pattern] def mouse : UInt32 := 101
@[match_pattern] def key : UInt32 := 102
@[match_pattern] def close : UInt32 := 103
@[match_pattern] def focus : UInt32 := 104
@[match_pattern] def rejected : UInt32 := 105
@[match_pattern] def resize : UInt32 := 106
@[match_pattern] def fileChosen : UInt32 := 107
@[match_pattern] def theme : UInt32 := 108
@[match_pattern] def placed : UInt32 := 109
@[match_pattern] def screen : UInt32 := 110
@[match_pattern] def welcome : UInt32 := 111
@[match_pattern] def toplevelState : UInt32 := 112
@[match_pattern] def toplevelClosed : UInt32 := 113
@[match_pattern] def selection : UInt32 := 114
@[match_pattern] def workspaces : UInt32 := 115
@[match_pattern] def output : UInt32 := 116
@[match_pattern] def drop : UInt32 := 117
@[match_pattern] def layerConfigured : UInt32 := 118
@[match_pattern] def wallpaperResult : UInt32 := 119
@[match_pattern] def toplevelGeometry : UInt32 := 120

end Tag

inductive Request where
  | createWindow (shm width height : UInt32) (title : Title)
  | present (window x y width height : UInt32)
  | destroy (window : UInt32)
  | setTitle (window : UInt32) (title : Title)
  | setCursor (window cursor : UInt32)
  | notify (title body : Title)
  | setWallpaper (request : UInt32) (path : Text)
  | setIcon (window : UInt32) (name : Title)
  | attach (window shm width height : UInt32)
  | sizeHints (window minWidth minHeight maxWidth maxHeight : UInt32)
  | chooseFile (request mode : UInt32) (title : Title) (filters start : Text)
  | pickerResult (token status : UInt32) (path : Text)
  | setMaximized (window maximized : UInt32)
  | createPopup (shm width height parent : UInt32) (x y : Int32)
  | movePopup (window : UInt32) (x y : Int32)
  | trackPosition (window : UInt32)
  | setFrame (window decorated : UInt32)
  | beginMove (window : UInt32)
  | beginResize (window edges : UInt32)
  | minimize (window : UInt32)
  | setAppId (window pid : UInt32) (appId : Title)
  | hello (version : UInt32)
  | createLayer (shm width height layer anchor : UInt32) (exclusive : Int32) (margins : Margins) (keyboard : UInt32)
  | configureLayer (window anchor : UInt32) (exclusive : Int32) (margins : Margins)
  | subscribeToplevels
  | toplevelAction (toplevel action : UInt32)
  | setSelection (mime : Title) (data : Text)
  | getSelection (mime : Title)
  | switchWorkspace (index : UInt32)
  | moveToWorkspace (window index : UInt32)
  | startDrag (window : UInt32) (mime : Title) (data : Text)
  | shellAction (action : UInt32)
  | toast (title body icon : Title)
  | toplevelRectangle (toplevel : UInt32) (x y width height : Int32)
  deriving DecidableEq

/-- What `encode` writes, in order. -/
def Request.items : Request → List Item
  | .createWindow shm width height title => [.u32 Tag.createWindow, .u32 shm, .u32 width, .u32 height, .title title]
  | .present window x y width height => [.u32 Tag.present, .u32 window, .u32 x, .u32 y, .u32 width, .u32 height]
  | .destroy window => [.u32 Tag.destroy, .u32 window]
  | .setTitle window title => [.u32 Tag.setTitle, .u32 window, .title title]
  | .setCursor window cursor => [.u32 Tag.setCursor, .u32 window, .u32 cursor]
  | .notify title body => [.u32 Tag.notify, .title title, .title body]
  | .setWallpaper request path => [.u32 Tag.setWallpaper, .u32 request, .text path]
  | .setIcon window name => [.u32 Tag.setIcon, .u32 window, .title name]
  | .setAppId window pid appId => [.u32 Tag.setAppId, .u32 window, .u32 pid, .title appId]
  | .attach window shm width height => [.u32 Tag.attach, .u32 window, .u32 shm, .u32 width, .u32 height]
  | .sizeHints window minWidth minHeight maxWidth maxHeight =>
    [.u32 Tag.sizeHints, .u32 window, .u32 minWidth, .u32 minHeight, .u32 maxWidth, .u32 maxHeight]
  | .chooseFile request mode title filters start =>
    [.u32 Tag.chooseFile, .u32 request, .u32 mode, .title title, .text filters, .text start]
  | .pickerResult token status path => [.u32 Tag.pickerResult, .u32 token, .u32 status, .text path]
  | .setMaximized window maximized => [.u32 Tag.setMaximized, .u32 window, .u32 maximized]
  | .createPopup shm width height parent x y =>
    [.u32 Tag.createPopup, .u32 shm, .u32 width, .u32 height, .u32 parent, .i32 x, .i32 y]
  | .movePopup window x y => [.u32 Tag.movePopup, .u32 window, .i32 x, .i32 y]
  | .trackPosition window => [.u32 Tag.trackPosition, .u32 window]
  | .setFrame window decorated => [.u32 Tag.setFrame, .u32 window, .u32 decorated]
  | .beginMove window => [.u32 Tag.beginMove, .u32 window]
  | .beginResize window edges => [.u32 Tag.beginResize, .u32 window, .u32 edges]
  | .minimize window => [.u32 Tag.minimize, .u32 window]
  | .hello version => [.u32 Tag.hello, .u32 version]
  | .createLayer shm width height layer anchor exclusive margins keyboard =>
    [.u32 Tag.createLayer, .u32 shm, .u32 width, .u32 height, .u32 layer, .u32 anchor, .i32 exclusive,
      .i32 margins.first, .i32 margins.second, .i32 margins.third, .i32 margins.fourth, .u32 keyboard]
  | .configureLayer window anchor exclusive margins =>
    [.u32 Tag.configureLayer, .u32 window, .u32 anchor, .i32 exclusive, .i32 margins.first, .i32 margins.second,
      .i32 margins.third, .i32 margins.fourth]
  | .subscribeToplevels => [.u32 Tag.subscribeToplevels]
  | .toplevelAction toplevel action => [.u32 Tag.toplevelAction, .u32 toplevel, .u32 action]
  | .setSelection mime data => [.u32 Tag.setSelection, .title mime, .text data]
  | .getSelection mime => [.u32 Tag.getSelection, .title mime]
  | .switchWorkspace index => [.u32 Tag.switchWorkspace, .u32 index]
  | .moveToWorkspace window index => [.u32 Tag.moveToWorkspace, .u32 window, .u32 index]
  | .startDrag window mime data => [.u32 Tag.startDrag, .u32 window, .title mime, .text data]
  | .shellAction action => [.u32 Tag.shellAction, .u32 action]
  | .toast title body icon => [.u32 Tag.toast, .title title, .title body, .title icon]
  | .toplevelRectangle toplevel x y width height =>
    [.u32 Tag.toplevelRectangle, .u32 toplevel, .i32 x, .i32 y, .i32 width, .i32 height]

open Reader in
/-- The fields behind the tag. -/
def Request.decodeTagged (tag : UInt32) : StateT Reader Option Request := do
  match tag with
  | Tag.createWindow => return .createWindow (← u32) (← u32) (← u32) (← title)
  | Tag.present => return .present (← u32) (← u32) (← u32) (← u32) (← u32)
  | Tag.destroy => return .destroy (← u32)
  | Tag.setTitle => return .setTitle (← u32) (← title)
  | Tag.setCursor => return .setCursor (← u32) (← u32)
  | Tag.notify => return .notify (← title) (← title)
  | Tag.setWallpaper => return .setWallpaper (← u32) (← text)
  | Tag.setIcon => return .setIcon (← u32) (← title)
  | Tag.setAppId => return .setAppId (← u32) (← u32) (← title)
  | Tag.attach => return .attach (← u32) (← u32) (← u32) (← u32)
  | Tag.sizeHints => return .sizeHints (← u32) (← u32) (← u32) (← u32) (← u32)
  | Tag.chooseFile => return .chooseFile (← u32) (← u32) (← title) (← text) (← text)
  | Tag.pickerResult => return .pickerResult (← u32) (← u32) (← text)
  | Tag.setMaximized => return .setMaximized (← u32) (← u32)
  | Tag.createPopup => return .createPopup (← u32) (← u32) (← u32) (← u32) (← i32) (← i32)
  | Tag.movePopup => return .movePopup (← u32) (← i32) (← i32)
  | Tag.trackPosition => return .trackPosition (← u32)
  | Tag.setFrame => return .setFrame (← u32) (← u32)
  | Tag.beginMove => return .beginMove (← u32)
  | Tag.beginResize => return .beginResize (← u32) (← u32)
  | Tag.minimize => return .minimize (← u32)
  | Tag.hello => return .hello (← u32)
  | Tag.createLayer => return .createLayer (← u32) (← u32) (← u32) (← u32) (← u32) (← i32) (← margins) (← u32)
  | Tag.configureLayer => return .configureLayer (← u32) (← u32) (← i32) (← margins)
  | Tag.subscribeToplevels => return .subscribeToplevels
  | Tag.toplevelAction => return .toplevelAction (← u32) (← u32)
  | Tag.setSelection => return .setSelection (← title) (← text)
  | Tag.getSelection => return .getSelection (← title)
  | Tag.switchWorkspace => return .switchWorkspace (← u32)
  | Tag.moveToWorkspace => return .moveToWorkspace (← u32) (← u32)
  | Tag.startDrag => return .startDrag (← u32) (← title) (← text)
  | Tag.shellAction => return .shellAction (← u32)
  | Tag.toast => return .toast (← title) (← title) (← title)
  | Tag.toplevelRectangle => return .toplevelRectangle (← u32) (← i32) (← i32) (← i32) (← i32)
  | _ => failure

inductive Event where
  | created (window : UInt32)
  | mouse (window : UInt32) (x y : Int32) (buttons kind : UInt32) (wheel : Int32)
  | key (window : UInt32) (code : Int32) (mods : UInt32)
  | close (window : UInt32)
  | focus (window : UInt32) (focused : Bool)
  | rejected (reason : UInt32)
  | resize (window width height : UInt32)
  | fileChosen (request status : UInt32) (path : Text)
  | theme (light : Bool)
  | placed (window : UInt32) (x y : Int32)
  | screen (width height : UInt32)
  | welcome (version features : UInt32)
  | toplevelState (toplevel state workspace : UInt32) (title appId : Title)
  | toplevelClosed (toplevel : UInt32)
  | selection (mime : Title) (data : Text)
  | workspaces (current count : UInt32)
  | output (width height scale : UInt32)
  | drop (window : UInt32) (x y : Int32) (mime : Title) (data : Text)
  | layerConfigured (window : UInt32) (x y : Int32) (width height : UInt32)
  | wallpaperResult (request : UInt32) (accepted : Bool)
  | toplevelGeometry (toplevel : UInt32) (x y width height : Int32)
  deriving DecidableEq

/-- What `encode` writes, in order. -/
def Event.items : Event → List Item
  | .created window => [.u32 Tag.created, .u32 window]
  | .mouse window x y buttons kind wheel =>
    [.u32 Tag.mouse, .u32 window, .i32 x, .i32 y, .u32 buttons, .u32 kind, .i32 wheel]
  | .key window code mods => [.u32 Tag.key, .u32 window, .i32 code, .u32 mods]
  | .close window => [.u32 Tag.close, .u32 window]
  | .focus window focused => [.u32 Tag.focus, .u32 window, .u32 (boolWord focused)]
  | .rejected reason => [.u32 Tag.rejected, .u32 reason]
  | .resize window width height => [.u32 Tag.resize, .u32 window, .u32 width, .u32 height]
  | .fileChosen request status path => [.u32 Tag.fileChosen, .u32 request, .u32 status, .text path]
  | .theme light => [.u32 Tag.theme, .u32 (boolWord light)]
  | .placed window x y => [.u32 Tag.placed, .u32 window, .i32 x, .i32 y]
  | .screen width height => [.u32 Tag.screen, .u32 width, .u32 height]
  | .welcome version features => [.u32 Tag.welcome, .u32 version, .u32 features]
  | .toplevelState toplevel state workspace title appId =>
    [.u32 Tag.toplevelState, .u32 toplevel, .u32 state, .u32 workspace, .title title, .title appId]
  | .toplevelClosed toplevel => [.u32 Tag.toplevelClosed, .u32 toplevel]
  | .selection mime data => [.u32 Tag.selection, .title mime, .text data]
  | .workspaces current count => [.u32 Tag.workspaces, .u32 current, .u32 count]
  | .output width height scale => [.u32 Tag.output, .u32 width, .u32 height, .u32 scale]
  | .drop window x y mime data => [.u32 Tag.drop, .u32 window, .i32 x, .i32 y, .title mime, .text data]
  | .layerConfigured window x y width height =>
    [.u32 Tag.layerConfigured, .u32 window, .i32 x, .i32 y, .u32 width, .u32 height]
  | .wallpaperResult request accepted => [.u32 Tag.wallpaperResult, .u32 request, .u32 (boolWord accepted)]
  | .toplevelGeometry toplevel x y width height =>
    [.u32 Tag.toplevelGeometry, .u32 toplevel, .i32 x, .i32 y, .i32 width, .i32 height]

open Reader in
/-- The fields behind the tag. -/
def Event.decodeTagged (tag : UInt32) : StateT Reader Option Event := do
  match tag with
  | Tag.created => return .created (← u32)
  | Tag.mouse => return .mouse (← u32) (← i32) (← i32) (← u32) (← u32) (← i32)
  | Tag.key => return .key (← u32) (← i32) (← u32OrZero)
  | Tag.close => return .close (← u32)
  | Tag.focus => return .focus (← u32) ((← u32) != 0)
  | Tag.rejected => return .rejected (← u32)
  | Tag.resize => return .resize (← u32) (← u32) (← u32)
  | Tag.fileChosen => return .fileChosen (← u32) (← u32) (← text)
  | Tag.theme => return .theme ((← u32) != 0)
  | Tag.placed => return .placed (← u32) (← i32) (← i32)
  | Tag.screen => return .screen (← u32) (← u32)
  | Tag.welcome => return .welcome (← u32) (← u32)
  | Tag.toplevelState => return .toplevelState (← u32) (← u32) (← u32) (← title) (← title)
  | Tag.toplevelClosed => return .toplevelClosed (← u32)
  | Tag.selection => return .selection (← title) (← text)
  | Tag.workspaces => return .workspaces (← u32) (← u32)
  | Tag.output => return .output (← u32) (← u32) (← u32)
  | Tag.drop => return .drop (← u32) (← i32) (← i32) (← title) (← text)
  | Tag.layerConfigured => return .layerConfigured (← u32) (← i32) (← i32) (← u32) (← u32)
  | Tag.wallpaperResult => return .wallpaperResult (← u32) ((← u32) != 0)
  | Tag.toplevelGeometry => return .toplevelGeometry (← u32) (← i32) (← i32) (← i32) (← i32)
  | _ => failure

/-- The writes of `encode` and the length at the end. -/
def writeItems (items : List Item) (buf : Bytes) : Option (Bytes × Nat) :=
  (items.foldlM Writer.put ⟨buf, 0⟩).map fun w => (w.buf, w.len)

def Request.encode (request : Request) (buf : Bytes) : Option (Bytes × Nat) := writeItems request.items buf

def Event.encode (event : Event) (buf : Bytes) : Option (Bytes × Nat) := writeItems event.items buf

def Request.decode (bytes : Bytes) : Option Request :=
  StateT.run' (do Request.decodeTagged (← Reader.u32)) (Reader.mk bytes 0)

def Event.decode (bytes : Bytes) : Option Event :=
  StateT.run' (do Event.decodeTagged (← Reader.u32)) (Reader.mk bytes 0)

/-! ### What is written -/

namespace Item

def bytes : Item → Bytes
  | .u32 v => le32 v
  | .i32 v => le32 v.toUInt32
  | .title t => toLE 1 t.len ++ t.held
  | .text t => toLE 2 t.len ++ t.held

/-- The room an item takes at most. -/
def room : Item → Nat
  | .u32 _ => 4
  | .i32 _ => 4
  | .title _ => 1 + titleMax
  | .text _ => 2 + textMax

theorem length_bytes_le (item : Item) : item.bytes.length ≤ item.room := by
  cases item with
  | u32 v => simp [bytes, room]
  | i32 v => simp [bytes, room]
  | title t =>
    have := t.len_le
    simp only [bytes, room, length_append, length_toLE, t.length_held]
    omega
  | text t =>
    have := t.len_le
    simp only [bytes, room, length_append, length_toLE, t.length_held]
    omega

end Item

namespace Writer

/-- `bytes` were written behind what was there, in a buffer of the same length. -/
structure Appended (w w' : Writer) (bytes : Bytes) : Prop where
  length : w'.buf.length = w.buf.length
  len : w'.len = w.len + bytes.length
  written : w'.buf.take w'.len = w.buf.take w.len ++ bytes

theorem take_splice {buf src : Bytes} {n : Nat} (h : n + src.length ≤ buf.length) :
    (splice buf n src).take (n + src.length) = buf.take n ++ src := by
  exact take_left' (by rw [length_append, length_take]; omega)

theorem appended_copy (w : Writer) (src : Bytes) (h : w.len + src.length ≤ w.buf.length) :
    ∃ w', w.copy w.len src = some w' ∧ w'.len = w.len ∧ Appended w { w' with len := w.len + src.length } src := by
  unfold copy
  rw [if_pos h]
  exact ⟨_, rfl, rfl, length_splice h, rfl, take_splice h⟩

theorem Appended.append {w w' w'' : Writer} {a b : Bytes} (h : Appended w w' a) (h' : Appended w' w'' b) :
    Appended w w'' (a ++ b) := by
  refine ⟨h'.length.trans h.length, ?_, ?_⟩
  · rw [h'.len, h.len, length_append, add_assoc]
  · rw [h'.written, h.written, append_assoc]

theorem appended_u32 {w : Writer} (v : UInt32) (h : w.len + 4 ≤ w.buf.length) :
    ∃ w', w.u32 v = some w' ∧ Appended w w' (le32 v) := by
  obtain ⟨w', hcopy, hlen, happ⟩ := appended_copy w (le32 v) (by rw [length_le32]; exact h)
  refine ⟨_, ?_, happ⟩
  unfold u32
  rw [hcopy]
  simp only [bind_eq_bind, bind_some, hlen, length_le32]
  rfl

/-- The two copies of `title` and `text`. -/
theorem appended_fixedStr {w : Writer} {max : Nat} (width : Nat) (t : FixedStr max)
    (h : w.len + (width + t.len) ≤ w.buf.length) :
    ∃ w', (do
        let w ← w.copy w.len (toLE width t.len)
        let w ← w.copy (w.len + width) t.held
        return { w with len := w.len + (width + t.len) }) = some w' ∧ Appended w w' (toLE width t.len ++ t.held) := by
  obtain ⟨w₁, hcopy, hlen, happ⟩ := appended_copy w (toLE width t.len) (by rw [length_toLE]; omega)
  rw [length_toLE] at happ
  have hbuf : w₁.buf.length = w.buf.length := happ.length
  obtain ⟨w₂, hcopy', hlen', happ'⟩ := appended_copy { w₁ with len := w.len + width } t.held
    (by rw [t.length_held, hbuf]; dsimp only; omega)
  have hsecond : w₁.copy (w₁.len + width) t.held = some { w₂ with len := w₁.len } := by
    unfold copy at hcopy' ⊢
    dsimp only at hcopy'
    rw [t.length_held, hbuf, if_pos (by omega)] at hcopy'
    rw [hlen, t.length_held, hbuf, if_pos (by omega), ← some.inj hcopy']
  refine ⟨_, ?_, happ.append happ'⟩
  rw [hcopy]
  simp only [bind_eq_bind, bind_some]
  rw [hsecond]
  simp only [bind_some, hlen, t.length_held, add_assoc]
  rfl

theorem appended_put {w : Writer} (item : Item) (h : w.len + item.bytes.length ≤ w.buf.length) :
    ∃ w', w.put item = some w' ∧ Appended w w' item.bytes := by
  cases item with
  | u32 v => exact appended_u32 v h
  | i32 v => exact appended_u32 v.toUInt32 h
  | title t =>
    refine appended_fixedStr 1 t ?_
    simp only [Item.bytes, length_append, length_toLE, t.length_held] at h
    exact h
  | text t =>
    refine appended_fixedStr 2 t ?_
    simp only [Item.bytes, length_append, length_toLE, t.length_held] at h
    exact h

theorem appended_puts (items : List Item) {w : Writer}
    (h : w.len + (items.flatMap Item.bytes).length ≤ w.buf.length) :
    ∃ w', items.foldlM put w = some w' ∧ Appended w w' (items.flatMap Item.bytes) := by
  induction items generalizing w with
  | nil => exact ⟨w, rfl, rfl, rfl, (append_nil _).symm⟩
  | cons item items ih =>
    rw [flatMap_cons, length_append] at h
    obtain ⟨w₁, hput, happ⟩ := appended_put item (w := w) (by omega)
    obtain ⟨w₂, hputs, happ'⟩ := ih (w := w₁) (by rw [happ.len, happ.length]; omega)
    refine ⟨w₂, ?_, ?_⟩
    · rw [foldlM_cons, hput]
      exact hputs
    · rw [flatMap_cons]
      exact happ.append happ'

end Writer

theorem length_items_le (items : List Item) : (items.flatMap Item.bytes).length ≤ (items.map Item.room).sum := by
  induction items with
  | nil => exact le_refl 0
  | cons item items ih =>
    have := item.length_bytes_le
    rw [flatMap_cons, length_append, map_cons, sum_cons]
    omega

/-- Items with room in a message are written one after the other from the start of the buffer. -/
theorem writeItems_eq {items : List Item} (hroom : (items.map Item.room).sum ≤ messageMax) {buf : Bytes}
    (hbuf : buf.length = messageMax) :
    ∃ buf' n, writeItems items buf = some (buf', n) ∧ n ≤ messageMax ∧ buf'.length = messageMax ∧
      buf'.take n = items.flatMap Item.bytes := by
  have hlen := length_items_le items
  obtain ⟨w, hputs, happ⟩ := Writer.appended_puts items (w := ⟨buf, 0⟩) (by dsimp only; omega)
  refine ⟨w.buf, w.len, ?_, ?_, happ.length.trans hbuf, ?_⟩
  · unfold writeItems
    rw [hputs]
    rfl
  · rw [happ.len]
    dsimp only
    omega
  · rw [happ.written, take_zero, nil_append]

theorem Request.room_items (request : Request) : (request.items.map Item.room).sum ≤ messageMax := by
  cases request <;> simp [items, Item.room, titleMax, textMax, messageMax]

theorem Event.room_items (event : Event) : (event.items.map Item.room).sum ≤ messageMax := by
  cases event <;> simp [items, Item.room, titleMax, textMax, messageMax]

/-! ### What is read back -/

/-- Before `bytes`, the reader yields `a` and goes on behind them. -/
def Yields {α : Type} (p : StateT Reader Option α) (bytes : Bytes) (a : α) : Prop :=
  ∀ (r : Reader) (rest : Bytes), r.pos ≤ r.buf.length → r.buf.drop r.pos = bytes ++ rest →
    p r = some (a, { r with pos := r.pos + bytes.length })

namespace Yields

variable {α β : Type}

theorem pure {a b : α} (h : a = b) : Yields (Pure.pure a) [] b := by
  intro r rest _ _
  rw [h]
  rfl

theorem bind {p : StateT Reader Option α} {f : α → StateT Reader Option β} {first second : Bytes} {a : α} {b : β}
    (hp : Yields p first a) (hf : Yields (f a) second b) : Yields (p >>= f) (first ++ second) b := by
  intro r rest hpos hdrop
  have hlen : r.buf.length - r.pos = first.length + second.length + rest.length := by
    rw [← length_drop, hdrop, length_append, length_append]
  have hfirst := hp r (second ++ rest) hpos (by rw [hdrop, append_assoc])
  have hsecond := hf { r with pos := r.pos + first.length } rest (by dsimp only; omega)
    (by dsimp only; rw [← drop_drop, hdrop, append_assoc, drop_left])
  have heq : (p >>= f) r = (p r).bind fun x => f x.1 x.2 := rfl
  rw [heq, hfirst, bind_some, hsecond, length_append, add_assoc]

theorem u32 (v : UInt32) : Yields Reader.u32 (le32 v) v := by
  intro r rest hpos hdrop
  have hget := getRange_of_drop hpos hdrop
  rw [length_le32] at hget
  unfold Reader.u32
  rw [hget, length_le32]
  simp only [bind_eq_bind, bind_some, of32_le32]
  rfl

theorem i32 (v : Int32) : Yields Reader.i32 (le32 v.toUInt32) v := by
  have h := (u32 v.toUInt32).bind (f := fun w => Pure.pure w.toInt32) (Yields.pure (b := v) (Int32.toInt32_toUInt32 v))
  rw [append_nil] at h
  exact h

theorem u32OrZero (v : UInt32) : Yields Reader.u32OrZero (le32 v) v := by
  intro r rest hpos hdrop
  unfold Reader.u32OrZero
  rw [u32 v r rest hpos hdrop]
  rfl

/-- The four words of an array are four fields of what is written. -/
theorem margins_bind {f : Margins → StateT Reader Option β} {m : Margins} {rest : Bytes} {b : β}
    (hf : Yields (f m) rest b) :
    Yields (Reader.margins >>= f) (le32 m.first.toUInt32 ++ (le32 m.second.toUInt32 ++ (le32 m.third.toUInt32 ++
      (le32 m.fourth.toUInt32 ++ rest)))) b := by
  have hm : Yields Reader.margins (le32 m.first.toUInt32 ++ (le32 m.second.toUInt32 ++ (le32 m.third.toUInt32 ++
      (le32 m.fourth.toUInt32 ++ [])))) m :=
    (i32 m.first).bind ((i32 m.second).bind ((i32 m.third).bind ((i32 m.fourth).bind (Yields.pure rfl))))
  have h := hm.bind hf
  exact h

theorem fixedStr {width max : Nat} (hmax : max < 256 ^ width) (t : FixedStr max) :
    Yields (Reader.fixedStr width max) (toLE width t.len ++ t.held) t := by
  intro r rest hpos hdrop
  have hle := t.len_le
  have hlen : r.buf.length - r.pos = width + t.len + rest.length := by
    rw [← length_drop, hdrop, length_append, length_append, length_toLE, t.length_held]
  have hlength : r.buf.drop r.pos = toLE width t.len ++ (t.held ++ rest) := by rw [hdrop, append_assoc]
  have hheld : r.buf.drop (r.pos + width) = t.held ++ rest := by
    rw [← drop_drop, hlength, drop_left' (length_toLE _ _)]
  have hraw := getRange_of_drop hpos hlength
  have hbytes := getRange_of_drop (by omega) hheld
  rw [length_toLE] at hraw
  rw [t.length_held] at hbytes
  have hmin : min (ofLE (toLE width t.len)) max = t.len := by
    rw [ofLE_toLE, Nat.mod_eq_of_lt (by omega)]
    exact min_eq_left hle
  unfold Reader.fixedStr
  rw [hraw]
  simp only [bind_eq_bind, bind_some]
  rw [hmin, hbytes]
  simp only [bind_some]
  rw [dif_pos (by rw [t.length_held]; exact hle), t.ofBytes_held, length_append, length_toLE, t.length_held]
  rfl

theorem title (t : Title) : Yields Reader.title (toLE 1 t.len ++ t.held) t := fixedStr (by decide) t

theorem text (t : Text) : Yields Reader.text (toLE 2 t.len ++ t.held) t := fixedStr (by decide) t

variable {p : StateT Reader Option α} {f : α → StateT Reader Option β}

/-- From the start of a buffer that begins with the bytes. -/
theorem run {bytes : Bytes} {a : α} (h : Yields p bytes a) (extra : Bytes) :
    StateT.run' p (Reader.mk (bytes ++ extra) 0) = some a := by
  have heq : StateT.run' p (Reader.mk (bytes ++ extra) 0) = (p (Reader.mk (bytes ++ extra) 0)).map (·.1) := rfl
  rw [heq, h _ extra (Nat.zero_le _) (drop_zero ..)]
  rfl

end Yields

/-- Each field of each request is read as it was written. -/
theorem Request.yields (request : Request) :
    Yields (do Request.decodeTagged (← Reader.u32)) (request.items.flatMap Item.bytes) request := by
  cases request
  -- The fields in turn, in the order in which both sides have them.
  all_goals
    refine (Yields.u32 _).bind ?_
    repeat first
      | exact Yields.pure rfl
      | refine (Yields.u32 _).bind ?_
      | refine (Yields.i32 _).bind ?_
      | refine (Yields.title _).bind ?_
      | refine (Yields.text _).bind ?_
      | refine Yields.margins_bind ?_

/-- Each field of each event is read as it was written; a `bool` as whether its word is not zero. -/
theorem Event.yields (event : Event) :
    Yields (do Event.decodeTagged (← Reader.u32)) (event.items.flatMap Item.bytes) event := by
  cases event
  all_goals
    refine (Yields.u32 _).bind ?_
    repeat first
      | exact Yields.pure rfl
      | exact Yields.pure (by rw [boolWord_ne_zero])
      | refine (Yields.u32 _).bind ?_
      | refine (Yields.u32OrZero _).bind ?_
      | refine (Yields.i32 _).bind ?_
      | refine (Yields.title _).bind ?_
      | refine (Yields.text _).bind ?_

theorem Request.decode_encode (request : Request) {buf : Bytes} (hbuf : buf.length = messageMax) (extra : Bytes) :
    ∃ buf' n, request.encode buf = some (buf', n) ∧ n ≤ messageMax ∧ buf'.length = messageMax ∧
      Request.decode (buf'.take n ++ extra) = some request := by
  obtain ⟨buf', n, hwrite, hn, hlen, htake⟩ := writeItems_eq request.room_items hbuf
  refine ⟨buf', n, hwrite, hn, hlen, ?_⟩
  rw [htake]
  exact request.yields.run extra

theorem Event.decode_encode (event : Event) {buf : Bytes} (hbuf : buf.length = messageMax) (extra : Bytes) :
    ∃ buf' n, event.encode buf = some (buf', n) ∧ n ≤ messageMax ∧ buf'.length = messageMax ∧
      Event.decode (buf'.take n ++ extra) = some event := by
  obtain ⟨buf', n, hwrite, hn, hlen, htake⟩ := writeItems_eq event.room_items hbuf
  refine ⟨buf', n, hwrite, hn, hlen, ?_⟩
  rw [htake]
  exact event.yields.run extra

/-- **The protocol is exact.**  Every request and every event is written inside the buffer of a message
    and decoded as it was, whatever follows it; and a title or a text keeps the longest prefix of whole
    characters that fits. -/
theorem proto_exact :
    (∀ (request : Request) (buf extra : Bytes), buf.length = messageMax →
      ∃ buf' n, request.encode buf = some (buf', n) ∧ n ≤ messageMax ∧ buf'.length = messageMax ∧
        Request.decode (buf'.take n ++ extra) = some request) ∧
    (∀ (event : Event) (buf extra : Bytes), buf.length = messageMax →
      ∃ buf' n, event.encode buf = some (buf', n) ∧ n ≤ messageMax ∧ buf'.length = messageMax ∧
        Event.decode (buf'.take n ++ extra) = some event) ∧
    ∀ text : Lib.Text, FixedStr.KeepsLongestPrefix titleMax text ∧ FixedStr.KeepsLongestPrefix textMax text :=
  ⟨fun request _ extra hbuf => request.decode_encode hbuf extra,
    fun event _ extra hbuf => event.decode_encode hbuf extra,
    fun text => ⟨FixedStr.keepsLongestPrefix_new titleMax text, FixedStr.keepsLongestPrefix_new textMax text⟩⟩

/-- A request with a title, on a fresh buffer. -/
theorem proto_exact_setTitle :
    ∃ buf' n, (Request.setTitle 7 (FixedStr.new titleMax ['€'])).encode (zeros messageMax) = some (buf', n) ∧
      n ≤ messageMax ∧ buf'.length = messageMax ∧
      Request.decode (buf'.take n ++ [1]) = some (.setTitle 7 (FixedStr.new titleMax ['€'])) :=
  proto_exact.1 (.setTitle 7 (FixedStr.new titleMax ['€'])) (zeros messageMax) [1] (length_zeros messageMax)

end Proto

end HamixOS.Desktop
