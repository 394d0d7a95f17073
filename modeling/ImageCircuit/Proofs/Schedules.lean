import ImageCircuit.Image.Render
import ImageCircuit.Proofs.Evolution
import ImageCircuit.Proofs.Grid

/-!
# Rendering under any schedule

What a circuit stores does not show in its values, so a row looks the same whichever task renders
it, on whichever copy of the circuit, after whichever other rows. Every schedule of every sharing
out of the rows therefore ends with the same image.

* `shadeRow`: a row of pixels, from the values at each point alone
* `Rendering.advance`, `Rendering.run`: tasks that take turns, row by row, as a schedule says
* `Circuit.Copy.renderRow_eq`: any copy of a circuit renders a row to its shades
* `Rendering.Shows.advance`: what the grid shows after each turn
* `Circuit.Reachable.render_scheduled`: the image under any schedule
-/

namespace ImageCircuit

/-! ## Shades -/

/-- The mean color over a rectangle of a function from features to channels. -/
def shadePixel {σ : Type} [Source σ] (f : List Float → List Float) (rect : Rect) (samples : Nat) :
    Draw σ Color := do
  let points ← samplePoints rect samples
  let sum := points.foldl (fun sum (x, y) => sum.add (.ofChannels (f (features x y)))) Color.black
  return sum.divide samples.toFloat

/-- The pixels of row `y` in some columns. -/
def shadeCells (s : RenderSettings) (f : List Float → List Float) (y : Nat) (columns : List Nat) :
    Draw ChaCha (List Pixel) :=
  columns.mapM fun x => do
    let color ← shadePixel f (.forPixel x y s.size s.size) s.samples
    return color.toPixel

/-- The pixels of row `y`. -/
def shadeRow (s : RenderSettings) (f : List Float → List Float) (y : Nat) : List Pixel :=
  ((shadeCells s f y (List.range s.size)).run (rowSource s y)).1

/-- The values of the outputs of the entry. -/
def Circuit.channels (c : Circuit) (values : List Float) : List Float :=
  (c.outputMeanings c.entryIndex values).getD []

/-! ## Tasks that take turns -/

/-- A copy of a circuit, and the rows that are still to be rendered on it. -/
structure RenderTask where
  circuit : Circuit
  rows : List Nat

/-- Tasks at work on one grid. -/
structure Rendering where
  grid : Grid
  tasks : List RenderTask

namespace Rendering

/-- Tasks about to start, each with a copy of the prepared circuit. -/
def start (s : RenderSettings) (c : Circuit) (tasks : List (List Nat)) : Rendering where
  grid := .square s.size
  tasks := tasks.map fun rows => ⟨prepare s c, rows⟩

/-- Task `k` renders its next row into the grid. Without a row left it rests. -/
def advance (s : RenderSettings) (r : Rendering) (k : Nat) : Except Error Rendering :=
  match r.tasks[k]? with
  | some ⟨c, y :: rows⟩ =>
    match renderRow s c y with
    | (.error e, _) => .error e
    | (.ok row, c) => .ok ⟨r.grid.setRow y row, r.tasks.set k ⟨c, rows⟩⟩
  | _ => .ok r

/-- The tasks take turns; the schedule says whose turn it is. -/
def run (s : RenderSettings) (r : Rendering) (schedule : List Nat) : Except Error Rendering :=
  schedule.foldlM (advance s) r

end Rendering

namespace Circuit

variable {c base : Circuit} {σ : Type} [Source σ]

/-! ## Copies -/

/-- The circuit is another one but for what its modules store. -/
def Copy (base c : Circuit) : Prop :=
  ∃ modules, SameFrames base.modules modules ∧ c = { base with modules }

/-- Whatever is drawn, the one computation succeeds on a copy of the circuit with what the other one
gives. -/
def Paints {α : Type} (base : Circuit) (x : Draw σ (Except Error α × Circuit))
    (shades : Draw σ α) : Prop :=
  ∀ g, ∃ c, base.Copy c ∧ x g = ((.ok (shades g).1, c), (shades g).2)

namespace Copy

theorem refl (c : Circuit) : c.Copy c :=
  ⟨c.modules, .refl _, rfl⟩

/-- A copy is evaluated to the values of the circuit, and is a copy still. -/
theorem eval_eq (h : base.Copy c) (hbase : base.WellFormed) (values : List Float) :
    (c.eval values).1 = .ok (base.channels values) ∧ base.Copy (c.eval values).2 := by
  obtain ⟨modules, hframes, rfl⟩ := h
  obtain ⟨ys, hys⟩ := hbase.exists_outputMeanings hbase.entryIndex_lt values
  constructor
  · rw [channels, hys]
    exact hbase.evalModule_of_meanings hbase.entryIndex_lt hframes hys
  · exact ⟨_, hframes.trans (sameFrames_evalAt base.noise modules.length base.entryIndex values
      modules), rfl⟩

theorem channels_eq (h : base.Copy c) (hbase : base.WellFormed) (hc : c.WellFormed) :
    c.channels = base.channels := by
  funext values
  exact Except.ok.inj (((refl c).eval_eq hc values).1.symm.trans (h.eval_eq hbase values).1)

/-! ## Pixels -/

theorem sumColors_eq (h : base.Copy c) (hbase : base.WellFormed) (sum : Color)
    (points : List (Float × Float)) :
    ∃ c', base.Copy c' ∧ sumColors c sum points =
      (.ok (points.foldl (fun sum (x, y) => sum.add (.ofChannels (base.channels (features x y))))
        sum), c') := by
  induction points generalizing c sum with
  | nil => exact ⟨c, h, rfl⟩
  | cons point points ih =>
    obtain ⟨x, y⟩ := point
    obtain ⟨hvalues, hcopy⟩ := h.eval_eq hbase (features x y)
    obtain ⟨c', hc', hsum⟩ := ih hcopy (sum.add (.ofChannels (base.channels (features x y))))
    refine ⟨c', hc', ?_⟩
    rw [sumColors, ← Prod.mk.eta (p := c.eval (features x y)), hvalues]
    exact hsum

theorem renderPixel_paints (h : base.Copy c) (hbase : base.WellFormed) (rect : Rect)
    (samples : Nat) :
    base.Paints (renderPixel c rect samples : Draw σ _)
      (shadePixel base.channels rect samples) := by
  intro g
  obtain ⟨c', hc', hsum⟩ := h.sumColors_eq hbase .black ((samplePoints rect samples : Draw σ _) g).1
  refine ⟨c', hc', ?_⟩
  have hstep : (renderPixel c rect samples : Draw σ _) g =
      (((sumColors c .black ((samplePoints rect samples : Draw σ _) g).1).1.map
          (·.divide samples.toFloat),
        (sumColors c .black ((samplePoints rect samples : Draw σ _) g).1).2),
        ((samplePoints rect samples : Draw σ _) g).2) := rfl
  rw [hstep, hsum]
  rfl

/-! ## Rows -/

theorem renderCells_paints (h : base.Copy c) (hbase : base.WellFormed) (s : RenderSettings)
    (y : Nat) (columns : List Nat) :
    base.Paints (renderCells s y c columns) (shadeCells s base.channels y columns) := by
  induction columns generalizing c with
  | nil => exact fun g => ⟨c, h, rfl⟩
  | cons x columns ih =>
    intro g
    obtain ⟨c', hc', hpixel⟩ :=
      h.renderPixel_paints hbase (.forPixel x y s.size s.size) s.samples g
    obtain ⟨c'', hc'', hcells⟩ := ih hc'
      ((shadePixel base.channels (.forPixel x y s.size s.size) s.samples) g).2
    refine ⟨c'', hc'', ?_⟩
    have hshades : shadeCells s base.channels y (x :: columns) = do
        let color ← shadePixel base.channels (.forPixel x y s.size s.size) s.samples
        let rest ← shadeCells s base.channels y columns
        return color.toPixel :: rest := by
      simp only [shadeCells, List.mapM_cons, bind_assoc, pure_bind]
    rw [renderCells, hshades]
    simp only [bind, StateT.bind, hpixel, hcells]
    rfl

/-- Any copy of a circuit renders a row to its shades, and is a copy still. -/
theorem renderRow_eq (h : base.Copy c) (hbase : base.WellFormed) (s : RenderSettings) (y : Nat) :
    ∃ c', base.Copy c' ∧ renderRow s c y = (.ok (shadeRow s base.channels y), c') := by
  obtain ⟨c', hc', hcells⟩ :=
    h.renderCells_paints hbase s y (List.range s.size) (rowSource s y)
  refine ⟨c', hc', ?_⟩
  rw [renderRow, StateT.run, hcells]
  rfl

end Copy

end Circuit

/-! ## The rows that are done -/

/-- The image of which the rows in `done` are painted and the others are black. -/
def picture (s : RenderSettings) (shade : Nat → List Pixel) (done : List Nat) : Grid where
  width := s.size
  height := s.size
  pixels := .ofFn fun i : Fin (s.size * s.size) =>
    if i / max s.size 1 ∈ done then (shade (i / max s.size 1)).getD (i % max s.size 1) .black
    else .black

section

variable {s : RenderSettings} {shade : Nat → List Pixel} {done done' : List Nat}

theorem picture_eq_ofColors : picture s shade done = .ofColors s.size s.size fun x y =>
    if y ∈ done then (shade y).getD x .black else .black :=
  rfl

theorem picture_nil : picture s shade [] = .square s.size := by
  rw [picture_eq_ofColors, Grid.square, Grid.blank_eq_ofColors]
  simp only [List.not_mem_nil, if_false]

theorem div_lt_of_lt_mul {i n : Nat} (h : i < n * n) : i / max n 1 < n := by
  rcases Nat.eq_zero_or_pos n with rfl | hpos
  · omega
  · rw [Nat.max_eq_left hpos]
    exact Nat.div_lt_of_lt_mul h

/-- Only the rows of the image matter, and not in which order they are done. -/
theorem picture_congr (h : ∀ y < s.size, y ∈ done ↔ y ∈ done') :
    picture s shade done = picture s shade done' := by
  simp only [picture]
  congr 2
  funext i
  have := h _ (div_lt_of_lt_mul i.isLt)
  simp only [this]

theorem setRow_picture (y : Nat) :
    (picture s shade done).setRow y (shade y) = picture s shade (y :: done) := by
  rw [picture_eq_ofColors, Grid.setRow, Grid.mapRow_ofColors, picture_eq_ofColors]
  congr 1
  funext x' y'
  by_cases hy : y' = y
  · subst hy
    rw [if_pos rfl, if_pos List.mem_cons_self]
    split
    · simp only [List.getD_eq_getElem?_getD]
      cases (shade y')[x']? <;> rfl
    · rfl
  · simp only [hy, if_false, List.mem_cons, false_or]

/-- The finished image holds the shades of all rows. -/
theorem rows_picture (hlen : ∀ y, (shade y).length = s.size) :
    (picture s shade (List.range s.size)).rows = (List.range s.size).map shade := by
  rw [picture_eq_ofColors, Grid.rows_ofColors]
  split
  · next hzero => rw [hzero, List.range_zero, List.map_nil]
  · refine List.map_congr_left fun y hy => List.ext_getElem (by simp [hlen]) fun x _ hx => ?_
    rw [List.getElem_map, List.getElem_range, if_pos hy, List.getD_eq_getElem _ _ hx]

theorem length_shadeRow (s : RenderSettings) (f : List Float → List Float) (y : Nat) :
    (shadeRow s f y).length = s.size := by
  have hcells : List.Forall₂ (fun _ _ => True) (List.range s.size) (shadeRow s f y) :=
    Draw.always_mapM (fun _ _ _ => trivial) (rowSource s y)
  rw [← hcells.length_eq, List.length_range]

end

/-! ## Sequential rendering -/

namespace Circuit.Copy

variable {c base : Circuit} {s : RenderSettings}

theorem renderTask_eq (h : base.Copy c) (hbase : base.WellFormed) (done rows : List Nat) :
    renderTask s c (picture s (shadeRow s base.channels) done) rows =
      .ok (picture s (shadeRow s base.channels) (rows ++ done)) := by
  induction rows generalizing c done with
  | nil => rfl
  | cons y rows ih =>
    obtain ⟨c', hc', hrow⟩ := h.renderRow_eq hbase s y
    rw [renderTask, hrow]
    dsimp only
    rw [setRow_picture, ih hc']
    exact congrArg _ (picture_congr fun y _ => by simp [or_left_comm])

end Circuit.Copy

theorem foldlM_renderTask_eq {base : Circuit} (hbase : base.WellFormed) (s : RenderSettings)
    (tasks : List (List Nat)) (done : List Nat) :
    tasks.foldlM (fun g rows => renderTask s base g rows)
        (picture s (shadeRow s base.channels) done) =
      .ok (picture s (shadeRow s base.channels) (tasks.flatten ++ done)) := by
  induction tasks generalizing done with
  | nil => rfl
  | cons rows tasks ih =>
    rw [List.foldlM_cons, (Circuit.Copy.refl base).renderTask_eq hbase]
    refine (ih (rows ++ done)).trans (congrArg _ (picture_congr fun y _ => ?_))
    simp [or_left_comm]

/-- Tasks that run one after the other paint the rows that they are given. -/
theorem renderTasks_eq {c : Circuit} {s : RenderSettings} (hbase : (prepare s c).WellFormed)
    (tasks : List (List Nat)) :
    renderTasks s c tasks =
      .ok (picture s (shadeRow s (prepare s c).channels) tasks.flatten) := by
  rw [renderTasks, ← picture_nil, foldlM_renderTask_eq hbase, List.append_nil]

theorem render_eq {c : Circuit} {s : RenderSettings} (hbase : (prepare s c).WellFormed) :
    render s c =
      .ok (picture s (shadeRow s (prepare s c).channels) (List.range s.size)) := by
  rw [render, renderTasks_eq hbase, List.flatten_singleton]

/-! ## Tasks in turns -/

namespace Rendering

variable {base : Circuit} {s : RenderSettings} {tasks : List (List Nat)} {schedule : List Nat}
  {r : Rendering}

/-- The rows for which tasks have had their turns. -/
def doneRows (tasks : List (List Nat)) (schedule : List Nat) : List Nat :=
  tasks.zipIdx.flatMap fun (rows, k) => rows.take (schedule.count k)

theorem mem_doneRows_iff {y : Nat} :
    y ∈ doneRows tasks schedule ↔
      ∃ (k : Nat) (rows : List Nat), tasks[k]? = some rows ∧ y ∈ rows.take (schedule.count k) := by
  simp only [doneRows, List.mem_flatMap, Prod.exists, List.mk_mem_zipIdx_iff_getElem?]
  exact exists_comm

/-- With its next turn a task has done the first of the rows that are left. -/
theorem mem_doneRows_concat_iff {k y : Nat} :
    y ∈ doneRows tasks (schedule ++ [k]) ↔ y ∈ doneRows tasks schedule ∨
      ∃ rows : List Nat, tasks[k]? = some rows ∧ rows[schedule.count k]? = some y := by
  have htake : ∀ (j : Nat) (rows : List Nat), y ∈ rows.take ((schedule ++ [k]).count j) ↔
      y ∈ rows.take (schedule.count j) ∨ j = k ∧ rows[schedule.count k]? = some y := by
    intro j rows
    by_cases hj : k = j
    · subst hj
      simp [List.take_add_one, eq_comm]
    · simp [hj, Ne.symm hj]
  simp only [mem_doneRows_iff, htake]
  constructor
  · rintro ⟨j, rows, hrows, hmem | ⟨rfl, hnext⟩⟩
    · exact .inl ⟨j, rows, hrows, hmem⟩
    · exact .inr ⟨rows, hrows, hnext⟩
  · rintro (⟨j, rows, hrows, hmem⟩ | ⟨rows, hrows, hnext⟩)
    · exact ⟨j, rows, hrows, .inl hmem⟩
    · exact ⟨k, rows, hrows, .inr ⟨rfl, hnext⟩⟩

/-- What holds after some turns: the grid shows the rows that are done, and each task has the
others left, and a copy of the circuit to render them on. -/
structure Shows (base : Circuit) (s : RenderSettings) (tasks : List (List Nat))
    (schedule : List Nat) (r : Rendering) : Prop where
  grid : r.grid = picture s (shadeRow s base.channels) (doneRows tasks schedule)
  length : r.tasks.length = tasks.length
  task : ∀ (k : Nat) (rows : List Nat), tasks[k]? = some rows →
    ∃ c, r.tasks[k]? = some ⟨c, rows.drop (schedule.count k)⟩ ∧ base.Copy c

theorem shows_start {c : Circuit} : (start s c tasks).Shows (prepare s c) s tasks [] where
  grid := by
    rw [show doneRows tasks [] = [] by simp [doneRows], picture_nil]
    rfl
  length := by simp [start]
  task k rows hk := ⟨prepare s c, by simp [start, hk], .refl _⟩

/-- A task without a row left rests. -/
theorem Shows.rest (h : r.Shows base s tasks schedule) {k : Nat}
    (hleft : ∀ rows : List Nat, tasks[k]? = some rows → rows.length ≤ schedule.count k) :
    r.Shows base s tasks (schedule ++ [k]) where
  grid := by
    rw [h.grid]
    refine picture_congr fun y _ => ?_
    rw [mem_doneRows_concat_iff]
    refine ⟨.inl, fun hmem => hmem.resolve_right ?_⟩
    rintro ⟨rows, hrows, hnext⟩
    rw [List.getElem?_eq_none (hleft rows hrows)] at hnext
    cases hnext
  length := h.length
  task j rows hrows := by
    obtain ⟨c, hc, hcopy⟩ := h.task j rows hrows
    have hdrop : rows.drop ((schedule ++ [k]).count j) = rows.drop (schedule.count j) := by
      by_cases hj : k = j
      · subst hj
        have hlen := hleft rows hrows
        have hlen' : rows.length ≤ (schedule ++ [k]).count k := by simp; omega
        rw [List.drop_eq_nil_of_le hlen, List.drop_eq_nil_of_le hlen']
      · simp [hj]
    exact ⟨c, hdrop ▸ hc, hcopy⟩

/-- A task paints the next of its rows. -/
theorem Shows.paint (h : r.Shows base s tasks schedule) {k y : Nat} {rows : List Nat}
    {c : Circuit} (hk : tasks[k]? = some rows) (hnext : rows[schedule.count k]? = some y)
    (hcopy : base.Copy c) :
    (⟨r.grid.setRow y (shadeRow s base.channels y),
      r.tasks.set k ⟨c, rows.drop (schedule.count k + 1)⟩⟩ : Rendering).Shows base s tasks
        (schedule ++ [k]) where
  grid := by
    dsimp only
    rw [h.grid, setRow_picture]
    refine picture_congr fun z _ => ?_
    rw [mem_doneRows_concat_iff, List.mem_cons, or_comm]
    refine or_congr_right ⟨fun hz => ⟨rows, hk, hz ▸ hnext⟩, ?_⟩
    rintro ⟨rows', hrows', hz⟩
    obtain rfl := Option.some.inj (hk.symm.trans hrows')
    exact Option.some.inj (hz.symm.trans hnext)
  length := by simp [h.length]
  task j rows' hrows' := by
    by_cases hj : k = j
    · subst hj
      obtain rfl := Option.some.inj (hk.symm.trans hrows')
      have hlt : k < r.tasks.length := h.length ▸ (List.getElem?_eq_some_iff.mp hk).1
      exact ⟨c, by simp [hlt], hcopy⟩
    · obtain ⟨c', hc', hcopy'⟩ := h.task j rows' hrows'
      exact ⟨c', by simp [hj, hc'], hcopy'⟩

/-- After one more turn it holds again. -/
theorem Shows.advance (h : r.Shows base s tasks schedule) (hbase : base.WellFormed) (k : Nat) :
    ∃ r', r.advance s k = .ok r' ∧ r'.Shows base s tasks (schedule ++ [k]) := by
  cases hk : tasks[k]? with
  | none =>
    have hnone : r.tasks[k]? = none := by
      rw [List.getElem?_eq_none_iff] at hk ⊢
      rwa [h.length]
    exact ⟨r, by rw [Rendering.advance, hnone], h.rest fun rows hrows => by cases hk ▸ hrows⟩
  | some rows =>
    obtain ⟨c, hc, hcopy⟩ := h.task k rows hk
    by_cases hlt : schedule.count k < rows.length
    · obtain ⟨c', hc', hrow⟩ := hcopy.renderRow_eq hbase s rows[schedule.count k]
      rw [List.drop_eq_getElem_cons hlt] at hc
      refine ⟨_, ?_, h.paint hk (List.getElem?_eq_getElem hlt) hc'⟩
      rw [Rendering.advance, hc]
      dsimp only
      rw [hrow]
    · rw [List.drop_eq_nil_of_le (Nat.le_of_not_lt hlt)] at hc
      refine ⟨r, by rw [Rendering.advance, hc], h.rest fun rows' hrows' => ?_⟩
      obtain rfl := Option.some.inj (hk.symm.trans hrows')
      exact Nat.le_of_not_lt hlt

theorem Shows.run (h : r.Shows base s tasks schedule) (hbase : base.WellFormed)
    (rest : List Nat) : ∃ r', r.run s rest = .ok r' ∧ r'.Shows base s tasks (schedule ++ rest) := by
  induction rest generalizing r schedule with
  | nil => exact ⟨r, rfl, by rwa [List.append_nil]⟩
  | cons k rest ih =>
    obtain ⟨r', hstep, hr'⟩ := h.advance hbase k
    obtain ⟨r'', hrun, hr''⟩ := ih hr'
    refine ⟨r'', ?_, by rwa [List.append_assoc] at hr''⟩
    rw [Rendering.run, List.foldlM_cons, hstep]
    exact hrun

/-- Once every task has had as many turns as it has rows, all its rows are done. -/
theorem mem_doneRows_of_count
    (hturns : ∀ (k : Nat) (rows : List Nat), tasks[k]? = some rows →
      rows.length ≤ schedule.count k) {y : Nat} :
    y ∈ doneRows tasks schedule ↔ y ∈ tasks.flatten := by
  simp only [mem_doneRows_iff, List.mem_flatten, List.mem_iff_getElem? (l := tasks)]
  constructor
  · rintro ⟨k, rows, hrows, hmem⟩
    exact ⟨rows, ⟨k, hrows⟩, List.mem_of_mem_take hmem⟩
  · rintro ⟨rows, ⟨k, hrows⟩, hmem⟩
    exact ⟨k, rows, hrows, by rwa [List.take_of_length_le (hturns k rows hrows)]⟩

end Rendering

/-! ## The image -/

namespace Circuit

variable {c c' : Circuit}

theorem Reachable.noise_eq (h : c.Reachable) : c.noise = .ofSeed c.noise.seed := by
  induction h with
  | read h => exact (printable_of_read h).noise
  | draw h =>
    obtain ⟨m, -, -, hcompose⟩ := exists_of_draw h
    rw [noise_of_compose hcompose]
    rfl
  | eval _ values ih => exact ih
  | evalModule _ index values ih => exact ih
  | mutateOperator _ s ih => exact ih
  | mutateConnection _ attempts s ih => exact ih
  | mutate _ settings s ih => exact ih
  | mutated _ settings s hchild ih => exact eq_of_mutated hchild ▸ ih
  | @withNoiseSeed c _ seed ih =>
    rw [withNoiseSeed_eq_withNoise ih]
    rfl

/-- Modules of the same frames have the same names. -/
theorem WellFormed.names_eq (h : c.WellFormed) (h' : c'.WellFormed)
    (hframes : SameFrames c.modules c'.modules) : c'.names = c.names := by
  rw [h.names, h'.names]
  exact map_name_of_forall₂ (forall₂_of_getElem? hframes.1 hframes.2) fun _ _ hframe => hframe.name

/-- Circuits of the same structure are prepared to copies of each other. -/
theorem copy_prepare (hnoise : c.noise = .ofSeed c.noise.seed)
    (hnoise' : c'.noise = .ofSeed c'.noise.seed) (hnames : c'.names = c.names)
    (hframes : SameFrames c.modules c'.modules) (s : RenderSettings) :
    (prepare s c).Copy (prepare s c') := by
  rw [prepare, prepare, withNoiseSeed_eq_withNoise hnoise, withNoiseSeed_eq_withNoise hnoise']
  refine ⟨c'.modules, hframes, ?_⟩
  rw [withNoise, withNoise, hnames]

/-- Rendering a circuit that is read or drawn at random, and then evaluated and mutated any number
of times, succeeds. However the rows are shared out among tasks, in whichever order a task takes its
rows, and whenever tasks have their turns, the image is the same. Row `y` shows the shades of the
values that the circuit stands for over the noise of the settings. Another circuit of the same
names, pins, operators, arguments and constants has the same image. -/
theorem Reachable.render_scheduled (h : c.Reachable) (s : RenderSettings) :
    ∃ grid, render s c = .ok grid ∧ grid.width = s.size ∧ grid.height = s.size ∧
      grid.rows = (List.range s.size).map (shadeRow s (prepare s c).channels) ∧
      (∀ tasks : List (List Nat), tasks.flatten.Perm (List.range s.size) →
        renderTasks s c tasks = .ok grid ∧
        ∀ schedule : List Nat, ∃ r, (Rendering.start s c tasks).run s schedule = .ok r ∧
          ((∀ (k : Nat) (rows : List Nat), tasks[k]? = some rows →
            rows.length ≤ schedule.count k) → r.grid = grid)) ∧
      ∀ c' : Circuit, c'.Reachable → SameFrames c.modules c'.modules → render s c' = .ok grid := by
  have hbase : (prepare s c).WellFormed := h.wellFormed.withNoiseSeed s.noiseSeed
  refine ⟨_, render_eq hbase, rfl, rfl, rows_picture (length_shadeRow s _),
    fun tasks hperm => ⟨?_, fun schedule => ?_⟩, fun c' h' hframes => ?_⟩
  · rw [renderTasks_eq hbase tasks]
    exact congrArg _ (picture_congr fun y _ => hperm.mem_iff)
  · obtain ⟨r, hrun, hshows⟩ := Rendering.shows_start.run hbase schedule
    refine ⟨r, hrun, fun hturns => hshows.grid.trans (picture_congr fun y _ => ?_)⟩
    rw [List.nil_append, Rendering.mem_doneRows_of_count hturns]
    exact hperm.mem_iff
  · have hbase' : (prepare s c').WellFormed := h'.wellFormed.withNoiseSeed s.noiseSeed
    have hcopy := copy_prepare h.noise_eq h'.noise_eq (h.wellFormed.names_eq h'.wellFormed hframes)
      hframes s
    rw [← hcopy.channels_eq hbase hbase']
    exact render_eq hbase'

/-- A circuit with a call, evaluated once before. One task renders the lower of two rows, another
one the upper, and the second has the first turn. -/
theorem render_scheduled_unaryCircuit :
    ∃ c s grid r, c = (unaryCircuit.eval [0.5]).2 ∧ s = ⟨2, 1, 0, 0⟩ ∧ c.Reachable ∧
      [[1], [0]].flatten.Perm (List.range 2) ∧ render s c = .ok grid ∧
      renderTasks s c [[1], [0]] = .ok grid ∧
      (Rendering.start s c [[1], [0]]).run s [1, 0] = .ok r ∧ r.grid = grid := by
  have hc : (unaryCircuit.eval [0.5]).2.Reachable := .eval reachable_unaryCircuit [0.5]
  obtain ⟨grid, hgrid, -, -, -, htasks, -⟩ := hc.render_scheduled ⟨2, 1, 0, 0⟩
  have hperm : [[1], [0]].flatten.Perm (List.range 2) := by decide
  obtain ⟨hrender, hschedule⟩ := htasks _ hperm
  obtain ⟨r, hrun, hr⟩ := hschedule [1, 0]
  refine ⟨_, _, grid, r, rfl, rfl, hc, hperm, hgrid, hrender, hrun, hr fun k rows hrows => ?_⟩
  match k, hrows with
  | 0, rfl => decide
  | 1, rfl => decide

end Circuit

end ImageCircuit
