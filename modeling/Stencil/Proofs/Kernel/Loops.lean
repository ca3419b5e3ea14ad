import Stencil.Convolution
import Stencil.Proofs.Outcome

/-!
# The loops of the filter

The filter keeps one sum for every channel and writes the sums of a pixel into the result before it
goes on to the next.  `samples` says what comes out of it: every sample is a left fold of its own over
the steps, started at zero.  The two agree also where they are abandoned, since a step that has
no source for a pixel has none for any of its channels.

What holds while the result is filled is `Filled`: the samples of the pixels already computed stand
in front, and zeros behind.  A pixel finds sums left over from another pixel, of which it uses nothing
but their number.

## Key results

- `Filling.sourceStart_le`: the source of a pixel lies inside the image
- `Filling.readSample_eq_ok`: a step reads what stands at the source of the pixel
- `Filling.foldlM_addStep`: the sums after all steps are the folds of the single channels
- `Filling.filled_step` / `Filling.filled_pixels`: one pixel, and all pixels in order
- `Filling.filterImage_eq_samples`: the loops compute the samples
-/

namespace Stencil.Convolution

/-! ## The result, sample by sample -/

/-- The position of a sample among the samples of an image. -/
def sampleIndex (width channels x y channel : Nat) : Except Fault Nat := do
  let above ← Word.product y width
  let pixel ← Word.sum above x
  let start ← Word.product pixel channels
  Word.sum start channel

/-- The sample that a step reads for the pixel at `(x, y)`. -/
def readSample (image : Image) (x y channel : Nat) (step : Step) : Except Fault Float32 := do
  let sourceX ← clampedMove x step.shift.right image.width
  let sourceY ← clampedMove y step.shift.up image.height
  let index ← sampleIndex image.width image.channels sourceX sourceY channel
  match image.samples[index]? with
  | some value => return value
  | none => throw .outOfRange

/-- One sample of the result: the weighted samples added up in the order of the steps. -/
def sample (steps : List Step) (image : Image) (x y channel : Nat) : Except Fault Float32 :=
  steps.foldlM
    (fun total step => do
      let value ← readSample image x y channel step
      return total + value * step.weight)
    (Precision.ofInt 0)

/-- All samples of the result.  The index of a sample gives its channel, column and row. -/
def samples (steps : List Step) (image : Image) (count : Nat) : Except Fault (List Float32) :=
  (List.range count).mapM fun index =>
    let pixel := index / image.channels
    sample steps image (pixel % image.width) (pixel / image.width) (index % image.channels)

/-- A sample is read at the start of its pixel, moved by its channel. -/
theorem readSample_eq (image : Image) (x y channel : Nat) (step : Step) :
    readSample image x y channel step =
      (do
        let start ← sourceStart image x y step
        let index ← Word.sum start channel
        sampleAt image index) := by
  simp only [readSample, sourceStart, sampleIndex, pixelStart, bind_assoc]
  rfl

/-! ## Positions -/

variable {image : Image} {count : Nat}

/-- An image whose samples fill its dimensions. -/
structure Filling (image : Image) (count : Nat) : Prop where
  count_eq : image.width * image.height * image.channels = count
  count_lt : count < Word.size
  size_eq : image.samples.size = count
  count_pos : 0 < count

/-- The samples fill the image when their number is the one that the dimensions ask for. -/
theorem filling_of_sampleCount (hcount : sampleCount image = .ok count)
    (hsize : image.samples.size = count) (hpos : 0 < count) : Filling image count := by
  obtain ⟨pixels, hpixels, hproduct⟩ := bind_eq_ok_iff.1 hcount
  obtain ⟨hpixels, -⟩ := Word.product_eq_ok_iff.1 hpixels
  obtain ⟨hproduct, hlt⟩ := Word.product_eq_ok_iff.1 hproduct
  exact ⟨by rw [hpixels, hproduct], hlt, hsize, hpos⟩

/-- An image with samples has channels. -/
theorem Filling.channels_pos (h : Filling image count) : 0 < image.channels := by
  have hpos := h.count_pos
  rw [← h.count_eq] at hpos
  exact Nat.pos_of_mul_pos_left hpos

/-- The cells of a rectangle are counted row by row. -/
theorem cell_lt {width height x y : Nat} (hx : x < width) (hy : y < height) :
    y * width + x < width * height :=
  calc y * width + x < y * width + width := Nat.add_lt_add_left hx _
    _ = (y + 1) * width := (Nat.succ_mul y width).symm
    _ ≤ height * width := Nat.mul_le_mul_right width hy
    _ = width * height := Nat.mul_comm height width

/-- Behind the start of a pixel there is room for its channels. -/
theorem Filling.pixel_le (h : Filling image count) {x y : Nat} (hx : x < image.width)
    (hy : y < image.height) :
    (y * image.width + x) * image.channels + image.channels ≤ count := by
  rw [← Nat.succ_mul, ← h.count_eq]
  exact Nat.mul_le_mul_right image.channels (cell_lt hx hy)

/-- The index of a sample is taken apart into a column, a row and a channel of the image. -/
theorem Filling.cell_of_index (h : Filling image count) {index : Nat} (hindex : index < count) :
    index / image.channels % image.width < image.width ∧
      index / image.channels / image.width < image.height ∧
      index % image.channels < image.channels := by
  rw [← h.count_eq, Nat.mul_comm] at hindex
  have hpixel : index / image.channels < image.width * image.height := Nat.div_lt_of_lt_mul hindex
  have hwidth : 0 < image.width := Nat.pos_of_mul_pos_right (Nat.zero_lt_of_lt hpixel)
  exact ⟨Nat.mod_lt _ hwidth, Nat.div_lt_of_lt_mul hpixel, Nat.mod_lt _ h.channels_pos⟩

/-- The start of a pixel of the image is computed. -/
theorem Filling.pixelStart_eq_ok (h : Filling image count) {x y : Nat} (hx : x < image.width)
    (hy : y < image.height) :
    pixelStart image.width image.channels x y = .ok ((y * image.width + x) * image.channels) := by
  have hend := h.pixel_le hx hy
  have hlt := h.count_lt
  have hchannels := h.channels_pos
  have hpixel : y * image.width + x ≤ (y * image.width + x) * image.channels :=
    Nat.le_mul_of_pos_right _ hchannels
  -- Every intermediate value is below the number of samples, and that fits in a word
  unfold pixelStart
  rw [Word.product_of_lt (by omega), ok_bind, Word.sum_of_lt (by omega), ok_bind,
    Word.product_of_lt (by omega)]

/-- A coordinate is kept inside the image. -/
theorem clampedMove_lt {position extent moved : Nat} {shift : Int}
    (h : clampedMove position shift extent = .ok moved) : moved < extent := by
  -- The extent may be misread as a signed word, but never as a larger one
  have hextent := Word.toSigned_le extent
  unfold clampedMove at h
  simp only [bind_eq_ok_iff] at h
  obtain ⟨target, -, last, hchecked, h⟩ := h
  have hlast : last = Word.toSigned extent - 1 := Word.eq_of_checked_eq_ok hchecked
  split at h
  · exact absurd h (by simp [throw, throwThe, MonadExceptOf.throw, bind, Except.bind])
  · rw [pure_eq_ok_iff] at h
    omega

/-- Behind the source of a pixel there is room for its channels. -/
theorem Filling.sourceStart_le (h : Filling image count) {x y start : Nat} {step : Step}
    (hstart : sourceStart image x y step = .ok start) : start + image.channels ≤ count := by
  obtain ⟨sourceX, hx, hstart⟩ := bind_eq_ok_iff.1 hstart
  obtain ⟨sourceY, hy, hstart⟩ := bind_eq_ok_iff.1 hstart
  have hx := clampedMove_lt hx
  have hy := clampedMove_lt hy
  rw [h.pixelStart_eq_ok hx hy] at hstart
  obtain rfl := Except.ok.inj hstart
  exact h.pixel_le hx hy

/-! ## One step -/

/-- A sample of an image, and zero where there is none. -/
def valueAt (image : Image) (index : Nat) : Float32 := image.samples.getD index 0

/-- A sample of a full image is read. -/
theorem Filling.sampleAt_eq_ok (h : Filling image count) {index : Nat} (hindex : index < count) :
    sampleAt image index = .ok (valueAt image index) := by
  have hin : index < image.samples.size := by rw [h.size_eq]; exact hindex
  simp [sampleAt, valueAt, hin]

/-- Every sum grows by the weighted sample of its channel. -/
theorem Filling.addPixel_eq_ok (h : Filling image count) {start channel : Nat} (weight : Float32)
    {totals : List Float32} (hroom : start + (channel + totals.length) ≤ count) :
    addPixel image start weight channel totals =
      .ok ((totals.zipIdx channel).map fun (total, c) =>
        total + valueAt image (start + c) * weight) := by
  -- Induction on the sums, with the channel of the first of them
  induction totals generalizing channel with
  | nil => rfl
  | cons total totals ih =>
    rw [List.length_cons] at hroom
    have hlt := h.count_lt
    have hindex : start + channel < count := by omega
    rw [addPixel, Word.sum_of_lt (by omega), ok_bind, h.sampleAt_eq_ok hindex, ok_bind,
      ih (by omega), ok_bind]
    rfl

/-- What a step reads for a channel, once the source of the pixel is known. -/
theorem Filling.readSample_eq_ok (h : Filling image count) {x y start channel : Nat} {step : Step}
    (hstart : sourceStart image x y step = .ok start) (hchannel : channel < image.channels) :
    readSample image x y channel step = .ok (valueAt image (start + channel)) := by
  have hroom := h.sourceStart_le hstart
  have hlt := h.count_lt
  rw [readSample_eq, hstart, ok_bind, Word.sum_of_lt (by omega), ok_bind,
    h.sampleAt_eq_ok (by omega)]

/-! ## All steps -/

/-- A sum after all steps: the weighted samples of its channel added up in the order of the steps. -/
def sampleFrom (image : Image) (x y channel : Nat) (steps : List Step) (total : Float32) :
    Except Fault Float32 :=
  steps.foldlM
    (fun total step => do
      let value ← readSample image x y channel step
      return total + value * step.weight)
    total

/-- The first step adds what it reads, and the others go on from there. -/
theorem sampleFrom_cons (image : Image) (x y channel : Nat) (step : Step) (steps : List Step)
    (total : Float32) :
    sampleFrom image x y channel (step :: steps) total =
      readSample image x y channel step >>= fun value =>
        sampleFrom image x y channel steps (total + value * step.weight) := by
  rw [sampleFrom, List.foldlM_cons]
  cases readSample image x y channel step <;> rfl

/-- Computing a list from its values and indices leaves the indices as they are. -/
private theorem zipIdx_map_zipIdx (f : Float32 × Nat → Float32) (totals : List Float32) :
    (totals.zipIdx.map f).zipIdx = totals.zipIdx.map fun cell => (f cell, cell.2) := by
  refine List.ext_getElem? fun i => ?_
  simp only [List.getElem?_zipIdx, List.getElem?_map, Option.map_map]
  cases totals[i]? <;> simp

/-- The sums after all steps are computed channel by channel.  There has to be a channel: without one
    a step that has no source would go unnoticed. -/
theorem Filling.foldlM_addStep (h : Filling image count) (x y : Nat) (steps : List Step)
    {totals : List Float32} (hne : totals ≠ []) (hchannels : totals.length ≤ image.channels) :
    steps.foldlM (addStep image x y) totals =
      totals.zipIdx.mapM fun (total, channel) => sampleFrom image x y channel steps total := by
  -- Induction on the steps; the sums that one step leaves are those that the next begins with
  induction steps generalizing totals with
  | nil =>
    have hsame : totals.zipIdx.mapM (fun (total, channel) => sampleFrom image x y channel [] total) =
        .ok (totals.zipIdx.map Prod.fst) := mapM_eq_ok_map fun cell _ => rfl
    rw [hsame, List.zipIdx_map_fst]
    rfl
  | cons step steps ih =>
    rw [List.foldlM_cons]
    cases hstart : sourceStart image x y step with
    | error reason =>
      -- The first channel finds that there is no source
      obtain ⟨total, rest, rfl⟩ := List.exists_cons_of_ne_nil hne
      have hfirst : sampleFrom image x y 0 (step :: steps) total = .error reason := by
        rw [sampleFrom_cons, readSample_eq, hstart]
        rfl
      rw [addStep, hstart, List.zipIdx_cons, List.mapM_cons]
      dsimp only
      rw [hfirst]
      rfl
    | ok start =>
      -- Every channel reads its own sample behind the common start
      have hroom := h.sourceStart_le hstart
      have hadd : addPixel image start step.weight 0 totals =
          .ok (totals.zipIdx.map fun (total, c) =>
            total + valueAt image (start + c) * step.weight) :=
        h.addPixel_eq_ok step.weight (by omega)
      have hrest : ∀ cell ∈ totals.zipIdx,
          (fun (total, channel) => sampleFrom image x y channel (step :: steps) total) cell =
            sampleFrom image x y cell.2 steps
              (cell.1 + valueAt image (start + cell.2) * step.weight) := by
        intro cell hcell
        obtain ⟨total, channel⟩ := cell
        have hchannel : channel < totals.length := (List.mem_zipIdx' hcell).1
        dsimp only
        rw [sampleFrom_cons, h.readSample_eq_ok hstart (by omega), ok_bind]
      rw [addStep, hstart, ok_bind, hadd, ok_bind, mapM_congr hrest,
        ih (by simpa using hne) (by simpa using hchannels), zipIdx_map_zipIdx, List.mapM_map]
      rfl

/-! ## One pixel -/

/-- Values written from a position on take the place of as many others. -/
theorem toList_writeFrom {result : Array Float32} {start : Nat} {values : List Float32}
    (hroom : start + values.length ≤ result.size) :
    (writeFrom result start values).toList =
      result.toList.take start ++ values ++ result.toList.drop (start + values.length) := by
  induction values generalizing result start with
  | nil => simp [writeFrom]
  | cons value values ih =>
    rw [List.length_cons] at hroom
    have hin : start < result.toList.length := by
      rw [Array.length_toList]
      omega
    rw [writeFrom, ih (by rw [Array.size_setIfInBounds]; omega), Array.toList_setIfInBounds,
      List.length_cons, List.drop_set_of_lt (by omega)]
    -- The front part grew by the value just written
    have htake : (result.toList.set start value).take (start + 1) =
        result.toList.take start ++ [value] := by
      have htakeLength : (result.toList.take start).length = start :=
        List.length_take_of_le (by omega)
      rw [List.take_set, List.take_add_one, List.getElem?_eq_getElem hin, List.set_append]
      simp [htakeLength]
    rw [htake, show start + 1 + values.length = start + (values.length + 1) by omega]
    simp

/-- The samples of the pixel at `(x, y)`, channel by channel. -/
def pixelSamples (steps : List Step) (image : Image) (x y : Nat) : Except Fault (List Float32) :=
  (List.range image.channels).mapM fun channel => sample steps image x y channel

/-- A pixel is computed from sums of which only the number counts, and its samples are written to
    their place. -/
theorem Filling.filterPixel_eq (h : Filling image count) {x y : Nat} (hx : x < image.width)
    (hy : y < image.height) (steps : List Step) {progress : Progress}
    (hsums : progress.sums.length = image.channels) :
    filterPixel steps image y x progress = (do
      let values ← pixelSamples steps image x y
      let result ← copyInto progress.result ((y * image.width + x) * image.channels) values
      return ⟨result, values⟩) := by
  have hchannels := h.channels_pos
  -- Clearing leaves as many zeros as there were sums, whatever these were
  have hcleared : progress.sums.map (fun _ => Precision.ofInt 0) =
      List.replicate image.channels (Precision.ofInt 0) := by
    rw [List.map_const', hsums]
  have hvalues : (List.replicate image.channels (Precision.ofInt 0)).zipIdx.mapM
      (fun (total, channel) => sampleFrom image x y channel steps total) =
        pixelSamples steps image x y := by
    have hcells : (List.replicate image.channels (Precision.ofInt 0)).zipIdx =
        (List.range image.channels).map fun channel => (Precision.ofInt 0, channel) := by
      refine List.ext_getElem? fun i => ?_
      simp only [List.getElem?_zipIdx, List.getElem?_replicate, List.getElem?_map]
      by_cases hi : i < image.channels
      · simp [hi]
      · simp [hi]
    rw [hcells, List.mapM_map]
    rfl
  unfold filterPixel
  rw [hcleared]
  dsimp only
  rw [h.foldlM_addStep x y steps (by simp; omega) (by simp), hvalues, h.pixelStart_eq_ok hx hy]
  rfl

/-! ## All pixels -/

/-- After `n` pixels both ways of computing are abandoned for the same reason, or the samples of these
    pixels stand in front of zeros. -/
inductive Filled (count channels n : Nat) :
    Except Fault (List (List Float32)) → Except Fault Progress → Prop
  | abandoned (reason : Fault) : Filled count channels n (.error reason) (.error reason)
  | going {parts : List (List Float32)} {progress : Progress}
      (hfront : progress.result.toList =
        parts.flatten ++ List.replicate (count - n * channels) (Precision.ofInt 0))
      (hlength : parts.flatten.length = n * channels)
      (hsums : progress.sums.length = channels) :
      Filled count channels n (.ok parts) (.ok progress)

/-- Values are copied where there is room for them. -/
theorem Filling.copyInto_eq_ok (h : Filling image count) {result : Array Float32} {start : Nat}
    {values : List Float32} (hsize : result.size = count)
    (hroom : start + values.length ≤ count) :
    copyInto result start values = .ok (writeFrom result start values) := by
  have hlt := h.count_lt
  unfold copyInto
  rw [Word.sum_of_lt (by omega), ok_bind, if_pos (by omega)]
  rfl

/-- The next pixel is written behind the pixels before it. -/
theorem Filling.filled_step (h : Filling image count) (steps : List Step) {n : Nat}
    (hn : n < image.height * image.width) {before : Except Fault (List (List Float32))}
    {run : Except Fault Progress} (hfilled : Filled count image.channels n before run) :
    Filled count image.channels (n + 1)
      (do
        let parts ← before
        let part ← pixelSamples steps image (n % image.width) (n / image.width)
        return parts ++ [part])
      (do
        let progress ← run
        filterPixel steps image (n / image.width) (n % image.width) progress) := by
  have hwidth : 0 < image.width := Nat.pos_of_mul_pos_left (Nat.zero_lt_of_lt hn)
  have hx : n % image.width < image.width := Nat.mod_lt n hwidth
  have hy : n / image.width < image.height :=
    Nat.div_lt_of_lt_mul (by rw [Nat.mul_comm]; exact hn)
  have hcell : n / image.width * image.width + n % image.width = n := by
    rw [Nat.mul_comm]
    exact Nat.div_add_mod n image.width
  have hroom := h.pixel_le hx hy
  rw [hcell] at hroom
  cases hfilled with
  | abandoned reason => exact Filled.abandoned reason
  | @going parts progress hfront hlength hsums =>
    simp only [ok_bind]
    rw [h.filterPixel_eq hx hy steps hsums, hcell]
    cases hvalues : pixelSamples steps image (n % image.width) (n / image.width) with
    | error reason => exact Filled.abandoned reason
    | ok values =>
      have hcount : values.length = image.channels := by
        rw [length_of_mapM_eq_ok hvalues, List.length_range]
      -- What is written so far and the zeros fill the result, so there is room for the pixel
      have hsize : progress.result.size = count := by
        rw [← Array.length_toList, hfront, List.length_append, hlength, List.length_replicate]
        omega
      simp only [ok_bind]
      rw [h.copyInto_eq_ok hsize (by omega)]
      refine Filled.going ?_ ?_ hcount
      · dsimp only
        rw [toList_writeFrom (by omega), hfront, List.take_left' hlength, List.drop_append, hlength,
          List.drop_eq_nil_of_le (by omega), List.nil_append, List.drop_replicate,
          List.flatten_append, List.flatten_singleton]
        -- The zeros left over are those behind the pixel
        congr 2
        rw [Nat.succ_mul]
        omega
      · rw [List.flatten_append, List.length_append, hlength, Nat.succ_mul]
        simp [hcount]

/-- All pixels are computed one after the other. -/
theorem Filling.filled_pixels (h : Filling image count) (steps : List Step) {n : Nat}
    (hn : n ≤ image.height * image.width) :
    Filled count image.channels n
      ((List.range n).mapM fun p => pixelSamples steps image (p % image.width) (p / image.width))
      ((List.range n).foldlM
        (fun progress p => filterPixel steps image (p / image.width) (p % image.width) progress)
        ⟨Array.replicate count (Precision.ofInt 0),
          List.replicate image.channels (Precision.ofInt 0)⟩) := by
  induction n with
  | zero => exact Filled.going (by simp) (by simp) (by simp)
  | succ n ih =>
    have hstep := h.filled_step steps hn (ih (by omega))
    rw [List.range_succ, List.mapM_append, List.foldlM_append]
    simp only [List.mapM_cons, List.mapM_nil, List.foldlM_cons, List.foldlM_nil, bind_pure,
      pure_bind, bind_assoc]
    exact hstep

/-- The row and the column of a cell are found again from its index. -/
theorem row_column {width x : Nat} (hx : x < width) (y : Nat) :
    (y * width + x) / width = y ∧ (y * width + x) % width = x := by
  constructor
  · rw [Nat.mul_comm, Nat.mul_add_div (by omega), Nat.div_eq_of_lt hx, Nat.add_zero]
  · rw [Nat.mul_comm, Nat.mul_add_mod, Nat.mod_eq_of_lt hx]

/-- The loops over rows and columns go through the pixels in their order. -/
theorem filterImage_eq_foldlM (steps : List Step) (image : Image) (count : Nat) :
    filterImage steps image count =
      (List.range (image.height * image.width)).foldlM
        (fun progress p => filterPixel steps image (p / image.width) (p % image.width) progress)
        ⟨Array.replicate count (Precision.ofInt 0),
          List.replicate image.channels (Precision.ofInt 0)⟩ := by
  rw [foldlM_range_mul, filterImage]
  refine foldlM_congr fun y _ progress => foldlM_congr fun x hx progress => ?_
  obtain ⟨hrow, hcolumn⟩ := row_column (List.mem_range.1 hx) y
  rw [hrow, hcolumn]

/-- The samples of the result are those of the pixels, in their order. -/
theorem Filling.samples_eq (h : Filling image count) (steps : List Step) :
    samples steps image count =
      ((List.range (image.height * image.width)).mapM fun p =>
        pixelSamples steps image (p % image.width) (p / image.width)).map List.flatten := by
  have hcount : image.height * image.width * image.channels = count := by
    rw [Nat.mul_comm image.height, h.count_eq]
  rw [samples, ← hcount, mapM_range_mul]
  refine congrArg _ (mapM_congr fun p _ => mapM_congr fun channel hchannel => ?_)
  obtain ⟨hpixel, hrest⟩ := row_column (List.mem_range.1 hchannel) p
  rw [hpixel, hrest]

/-- When all pixels are computed, the result is their samples, one pixel behind the other. -/
theorem Filled.map_toList {channels n : Nat} {before : Except Fault (List (List Float32))}
    {run : Except Fault Progress} (h : Filled count channels n before run)
    (hcount : n * channels = count) :
    run.map (·.result.toList) = before.map List.flatten := by
  cases h with
  | abandoned reason => rfl
  | @going parts progress hfront hlength hsums =>
    -- No zeros are left
    rw [hcount, Nat.sub_self, List.replicate_zero, List.append_nil] at hfront
    show Except.ok progress.result.toList = Except.ok parts.flatten
    rw [hfront]

/-- The loops compute the samples: neither what the sums held before nor the order of the writes leaves
    a trace in them. -/
theorem Filling.filterImage_eq_samples (h : Filling image count) (steps : List Step) :
    (filterImage steps image count).map (·.result.toList) = samples steps image count := by
  have hfilled := h.filled_pixels steps (Nat.le_refl (image.height * image.width))
  have hcount : image.height * image.width * image.channels = count := by
    rw [Nat.mul_comm image.height, h.count_eq]
  rw [filterImage_eq_foldlM, h.samples_eq, hfilled.map_toList hcount]

end Stencil.Convolution
