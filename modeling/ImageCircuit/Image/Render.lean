import ImageCircuit.Circuit.Eval
import ImageCircuit.Image.Grid
import ImageCircuit.Image.Sample
import ImageCircuit.Settings.Basic

/-!
# Rendering

Every pixel is the mean color of a circuit at random points of its cell. Each row has a random
stream of its own, so the rows can be shared out among tasks in any way.

* `renderPixel`: the color of one cell
* `renderTask`: some rows, on one copy of the circuit
* `render`: the image, one row after the other on one circuit
* `renderParallel`: the image, the rows shared out among tasks
-/

namespace ImageCircuit

/-! ## Pixels -/

/-- The sum of the colors at some points. The circuit keeps the values found last. -/
def sumColors (c : Circuit) (sum : Color) :
    List (Float × Float) → Except Error Color × Circuit
  | [] => (.ok sum, c)
  | (x, y) :: points =>
    match c.eval (features x y) with
    | (.error e, c) => (.error e, c)
    | (.ok values, c) => sumColors c (sum.add (.ofChannels values)) points

/-- The mean color of a circuit over a rectangle. -/
def renderPixel {σ : Type} [Source σ] (c : Circuit) (rect : Rect) (samples : Nat) :
    Draw σ (Except Error Color × Circuit) := do
  let points ← samplePoints rect samples
  let (sum, c) := sumColors c .black points
  return (sum.map (·.divide samples.toFloat), c)

/-! ## Rows -/

/-- The pixels of row `y` from the given columns. -/
def renderCells (s : RenderSettings) (y : Nat) (c : Circuit) :
    List Nat → Draw ChaCha (Except Error (List Pixel) × Circuit)
  | [] => return (.ok [], c)
  | x :: columns => do
    match ← renderPixel c (.forPixel x y s.size s.size) s.samples with
    | (.error e, c) => return (.error e, c)
    | (.ok color, c) =>
      let (rest, c) ← renderCells s y c columns
      return (rest.map (color.toPixel :: ·), c)

/-- The random stream of row `y`. -/
def rowSource (s : RenderSettings) (y : Nat) : ChaCha :=
  (ChaCha.ofSeed s.seed).withStream (.ofNat y)

/-- The pixels of row `y`. -/
def renderRow (s : RenderSettings) (c : Circuit) (y : Nat) :
    Except Error (List Pixel) × Circuit :=
  ((renderCells s y c (List.range s.size)).run (rowSource s y)).1

/-- Renders some rows into a grid, one after the other on one circuit. -/
def renderTask (s : RenderSettings) (c : Circuit) (g : Grid) : List Nat → Except Error Grid
  | [] => .ok g
  | y :: rows =>
    match renderRow s c y with
    | (.error e, _) => .error e
    | (.ok row, c) => renderTask s c (g.setRow y row) rows

/-! ## Images -/

/-- The circuit over the noise field that the settings ask for. -/
def prepare (s : RenderSettings) (c : Circuit) : Circuit :=
  c.withNoiseSeed s.noiseSeed

/-- The image of a circuit, rendered by tasks that each take some rows and start from a copy of
the circuit. -/
def renderTasks (s : RenderSettings) (c : Circuit) (tasks : List (List Nat)) :
    Except Error Grid :=
  tasks.foldlM (fun g rows => renderTask s (prepare s c) g rows) (.square s.size)

/-- The image of a circuit, rendered row by row. -/
def render (s : RenderSettings) (c : Circuit) : Except Error Grid :=
  renderTasks s c [List.range s.size]

/-- The image of a circuit, each row rendered by a task of its own. -/
def renderParallel (s : RenderSettings) (c : Circuit) : Except Error Grid :=
  renderTasks s c ((List.range s.size).map ([·]))

end ImageCircuit
