import RaspiOrbSlam.TooJpeg.BlockDecoder

/-! # Decoding a scan

The decoding procedure of the format for the units of a scan. The first
coefficient of a block is predicted from the block before of the same component. -/

namespace RaspiOrbSlam.TooJpeg

open Foundation

/-- What a scan needs to know of a component: the number of blocks in a unit, and the codes. -/
structure ScanComponent where
  blocks : Nat
  dc : CodeLists
  ac : CodeLists

/-- A block behind others of its component: the blocks so far, and the prediction. -/
def nextBlock (c : ScanComponent) (state : List (List Int) × Int) (_ : Nat) :
    Parser Bool Malformed (List (List Int) × Int) := do
  let (diff, acs) ← decodeBlock c.dc c.ac
  let DC := state.2 + diff
  return (state.1 ++ [DC :: acs], DC)

/-- The blocks of the components in a unit, each component with its prediction. -/
def decodeUnit : (components : List (ScanComponent × Int)) →
    Parser Bool Malformed (List (List (List Int)) × List (ScanComponent × Int))
  | [] => return ([], [])
  | (c, prediction) :: rest => do
      let (blocks, prediction) ← (List.range c.blocks).foldlM (nextBlock c) ([], prediction)
      let (others, rest) ← decodeUnit rest
      return (blocks :: others, (c, prediction) :: rest)

/-- The units of a scan so far, and the predictions. -/
structure ScanProgress where
  units : List (List (List (List Int)))
  components : List (ScanComponent × Int)

def nextUnit (state : ScanProgress) (_ : Nat) : Parser Bool Malformed ScanProgress := do
  let (unit, components) ← decodeUnit state.components
  return ⟨state.units ++ [unit], components⟩

/-- A scan of `count` units. -/
def decodeScan (count : Nat) (components : List ScanComponent) :
    Parser Bool Malformed ScanProgress :=
  (List.range count).foldlM nextUnit ⟨[], components.map (·, 0)⟩

/-- One more turn of a decoding loop. -/
theorem foldlM_range_succ {σ : Type} {f : σ → Nat → Parser Bool Malformed σ} {n : Nat}
    {s t u : σ} {front back : List Bool}
    (hfront : Parser.Yields ((List.range n).foldlM f s) front t)
    (hback : Parser.Yields (f t n) back u) :
    Parser.Yields ((List.range (n + 1)).foldlM f s) (front ++ back) u := by
  have hlast : Parser.Yields ([n].foldlM f t) (back ++ []) u := hback.bind (Parser.Yields.pure u)
  rw [List.append_nil] at hlast
  rw [List.range_succ, List.foldlM_append]
  exact hfront.bind hlast

theorem foldlM_range_one {σ : Type} {f : σ → Nat → Parser Bool Malformed σ} {s t : σ}
    {bits : List Bool} (h : Parser.Yields (f s 0) bits t) :
    Parser.Yields ((List.range 1).foldlM f s) bits t :=
  foldlM_range_succ (n := 0) (Parser.Yields.pure s) h

/-- A component in front of the others of a unit. -/
theorem decodeUnit_cons {c : ScanComponent} {rest rest' : List (ScanComponent × Int)}
    {prediction prediction' : Int} {blocks : List (List Int)} {others : List (List (List Int))}
    {front back : List Bool}
    (hblocks : Parser.Yields ((List.range c.blocks).foldlM (nextBlock c) ([], prediction)) front
      (blocks, prediction'))
    (hothers : Parser.Yields (decodeUnit rest) back (others, rest')) :
    Parser.Yields (decodeUnit ((c, prediction) :: rest)) (front ++ back)
      (blocks :: others, (c, prediction') :: rest') := by
  have hpure : Parser.Yields (pure (blocks :: others, (c, prediction') :: rest') :
      Parser Bool Malformed _) [] _ := Parser.Yields.pure _
  have htail := hothers.bind
    (f := fun read : List (List (List Int)) × List (ScanComponent × Int) =>
      (pure (blocks :: read.1, (c, prediction') :: read.2) : Parser Bool Malformed _)) hpure
  rw [List.append_nil] at htail
  exact hblocks.bind htail

theorem decodeUnit_nil : Parser.Yields (decodeUnit []) [] ([], []) := Parser.Yields.pure _

end RaspiOrbSlam.TooJpeg
