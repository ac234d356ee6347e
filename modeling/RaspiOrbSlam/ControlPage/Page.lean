import RaspiOrbSlam.Foundation.EventRun
import Mathlib.Algebra.Order.Floor.Ring
import Mathlib.Data.Rat.Floor

/-!
# The control page

The page drives the tank by keys and by gamepads. It remembers which of nine
keys are down, a mask of the eight keys that it last acted on, and the last two
axis values. Speeds are integers as the page computes them; they become bytes
only when a message is built.
-/

namespace RaspiOrbSlam.ControlPage

/-- The properties of `keys`. -/
inductive Key where
  | a | s | d | w
  | A | S | D | W
  | f
  deriving DecidableEq, Repr

/-- The variables of the page, and the arguments of the calls of `sendData` so far. -/
structure Page where
  keys : Key → Bool
  lastState : Nat
  lastLeft : Int
  lastRight : Int
  sent : List (Int × Int)

/-- The page after it has loaded. -/
def Page.loaded : Page := ⟨fun _ => false, 0, 0, 0, []⟩

/-- A number stored in a `Uint8Array`. -/
def toUint8 (n : Int) : UInt8 := UInt8.ofNat (n % 256).toNat

/-- The buffer that `sendData` sends. -/
def message (left right : Int) : List UInt8 := [0x01, toUint8 left, toUint8 right, 0]

def sendData (left right : Int) (p : Page) : Page := { p with sent := p.sent ++ [(left, right)] }

/-- The mask `st` of `sendUpdate`. -/
def mask (keys : Key → Bool) : Nat :=
  (if keys .a then 1 else 0) + (if keys .s then 2 else 0) + (if keys .d then 4 else 0) +
    (if keys .w then 8 else 0) + (if keys .A then 16 else 0) + (if keys .S then 32 else 0) +
    (if keys .D then 64 else 0) + (if keys .W then 128 else 0)

/-- The two speeds, changed if the key is down. -/
def addIf (down : Bool) (left right : Int) (speeds : Int × Int) : Int × Int :=
  if down then (speeds.1 + left, speeds.2 + right) else speeds

/-- The speeds that `sendUpdate` computes. -/
def speeds (keys : Key → Bool) : Int × Int :=
  let sum : Int × Int := (0, 0)
  let sum :=
    if mask keys &&& 0xf0 = 0 then
      let sum := addIf (keys .w) 30 30 sum
      let sum := addIf (keys .s) (-30) (-30) sum
      let sum := addIf (keys .a) 0 (-30) sum
      addIf (keys .d) (-30) 0 sum
    else sum
  let sum := addIf (keys .W) 60 60 sum
  let sum := addIf (keys .S) (-60) (-60) sum
  let sum := addIf (keys .A) 0 (-60) sum
  let sum := addIf (keys .D) (-60) 0 sum
  if keys .f then (sum.1 * 2, sum.2 * 2) else sum

def sendUpdate (p : Page) : Page :=
  if p.lastState = mask p.keys then p
  else
    let p := { p with lastState := mask p.keys }
    sendData (speeds p.keys).1 (speeds p.keys).2 p

/-- `keys[k] = down`. -/
def record (keys : Key → Bool) (k : Key) (down : Bool) : Key → Bool :=
  fun k' => if k' = k then down else keys k'

/-- A reading of an axis. -/
abbrev Axis := { x : Rat // -1 ≤ x ∧ x ≤ 1 }

/-- `-Math.round(x * 100)` with an exact product; halves are rounded up. -/
def axisSpeed (x : Axis) : Int := -⌊x.val * 100 + 1 / 2⌋

/-- The body of the loop over the axes of one gamepad. -/
def readAxis (p : Page) (i : Nat) (x : Axis) : Page :=
  if i = 3 then
    let l := axisSpeed x
    if l ≠ p.lastLeft then
      let p := { p with lastLeft := l }
      sendData p.lastLeft p.lastRight p
    else p
  else if i = 1 then
    let l := axisSpeed x
    if l ≠ p.lastRight then
      let p := { p with lastRight := l }
      sendData p.lastLeft p.lastRight p
    else p
  else p

/-- The loop over the axes, from the index `i` on. -/
def readAxes (p : Page) (i : Nat) : List Axis → Page
  | [] => p
  | x :: rest => readAxes (readAxis p i x) (i + 1) rest

/-- What `updateStatus` does with the axes of all gamepads. -/
def updateStatus (p : Page) (controllers : List (List Axis)) : Page :=
  controllers.foldl (fun p axes => readAxes p 0 axes) p

/-- What the keys and the 5-second timer cause. -/
inductive KeyEvent where
  | keydown (key : Key)
  | keyup (key : Key)
  | timer
  deriving DecidableEq

/-- The body of `onkeydown` and `onkeyup`. -/
def Page.onKey (p : Page) (key : Key) (down : Bool) : Page :=
  sendUpdate { p with keys := record p.keys key down }

def Page.onKeyEvent (p : Page) : KeyEvent → Page
  | .keydown key => p.onKey key true
  | .keyup key => p.onKey key false
  | .timer => { p with keys := fun _ => false, lastState := 0 }

inductive Event where
  | key (e : KeyEvent)
  | poll (controllers : List (List Axis))

def Page.onEvent (p : Page) : Event → Page
  | .key e => p.onKeyEvent e
  | .poll controllers => updateStatus p controllers

end RaspiOrbSlam.ControlPage
