import Mathlib.Algebra.Order.Round
import Mathlib.Data.List.GetD
import ImageRegion.Proofs.Backing
import ImageRegion.Proofs.FullSize
import ImageRegion.Proofs.Netpbm.Scanning

namespace ImageRegion

def bytesOf : Nat → Nat → List UInt8
  | 0, _ => []
  | n + 1, v => bytesOf n (v / 256) ++ [UInt8.ofNat v]

def scaled (maxval v : Nat) : Int := round (((255 * min v maxval : Nat) : ℚ) / maxval)

def Rect.part (c : Rect) (width : Nat) (data : Array UInt8) : Array UInt8 :=
  (Array.range c.height).flatMap fun y =>
    data.extract ((c.top.toNat + y) * width + c.left.toNat)
      ((c.top.toNat + y) * width + c.left.toNat + c.width)

namespace Netpbm.Header

def encode (h : Header) (samples : List Nat) : List UInt8 :=
  samples.flatMap (bytesOf (if 255 < h.maxval then 2 else 1))

structure Writes (h : Header) (text : List UInt8) (samples : List Nat) : Prop where
  written : h.Written text
  length_text : text.length ≤ maxHeaderBytes
  length_samples : samples.length = h.width * h.height * h.channels
  lt : ∀ v ∈ samples, v < if 255 < h.maxval then 65536 else 256

def sample (h : Header) (samples : List Nat) (x y colour : Nat) : Nat :=
  samples.getD ((y * h.width + x) * h.channels + if h.channels = 1 then 0 else colour) 0

def shown (h : Header) (samples : List Nat) (x y : Nat) : Pixel :=
  ⟨rescale h.maxval (h.sample samples x y 0), rescale h.maxval (h.sample samples x y 1),
    rescale h.maxval (h.sample samples x y 2), 255⟩

end Netpbm.Header

namespace Farbfeld.Header

def encode (h : Header) (samples : List Nat) : List UInt8 :=
  name ++ bytesOf 4 h.width ++ bytesOf 4 h.height ++ samples.flatMap (bytesOf 2)

structure Writes (h : Header) (samples : List Nat) : Prop where
  width_pos : 1 ≤ h.width
  height_pos : 1 ≤ h.height
  width_lt : h.width < 0x100000000
  height_lt : h.height < 0x100000000
  length_samples : samples.length = h.width * h.height * 4
  lt : ∀ v ∈ samples, v < 65536

def sample (h : Header) (samples : List Nat) (x y channel : Nat) : Nat :=
  samples.getD ((y * h.width + x) * 4 + channel) 0

def shown (h : Header) (samples : List Nat) (x y : Nat) : Pixel :=
  ⟨rescale 65535 (h.sample samples x y 0), rescale 65535 (h.sample samples x y 1),
    rescale 65535 (h.sample samples x y 2), rescale 65535 (h.sample samples x y 3)⟩

end Farbfeld.Header

theorem length_bytesOf (n v : Nat) : (bytesOf n v).length = n := by
  induction n generalizing v with
  | zero => rfl
  | succ n ih => rw [bytesOf, List.length_append, ih, List.length_singleton]

theorem bigEndian_append (bytes : List UInt8) (b : UInt8) :
    bigEndian (bytes ++ [b]) = b.toNat + 256 * bigEndian bytes := by
  unfold bigEndian
  rw [List.reverse_append, List.reverse_singleton, List.singleton_append, List.map_cons,
    Nat.ofDigits_cons]

theorem bigEndian_bytesOf {n v : Nat} (h : v < 256 ^ n) : bigEndian (bytesOf n v) = v := by
  induction n generalizing v with
  | zero =>
    obtain rfl := Nat.lt_one_iff.mp h
    rfl
  | succ n ih =>
    rw [Nat.pow_succ] at h
    rw [bytesOf, bigEndian_append, ih (by omega), UInt8.toNat_ofNat']
    omega

theorem length_flatMap_bytesOf (samples : List Nat) (n : Nat) :
    (samples.flatMap (bytesOf n)).length = samples.length * n := by
  induction samples with
  | nil => simp
  | cons v samples ih =>
    rw [List.flatMap_cons, List.length_append, length_bytesOf, ih, List.length_cons, Nat.succ_mul,
      Nat.add_comm]

theorem getElem?_flatMap_bytesOf {samples : List Nat} {n i j : Nat} (hi : i < samples.length)
    (hj : j < n) : (samples.flatMap (bytesOf n))[i * n + j]? = (bytesOf n samples[i])[j]? := by
  have hdrop := Packing.drop_flatMap (bytesOf n) (l := samples) (fun v _ => length_bytesOf n v) i
  rw [← List.getElem?_drop, hdrop, List.drop_eq_getElem_cons hi, List.flatMap_cons,
    List.getElem?_append_left (by rwa [length_bytesOf])]

theorem rescale_eq_scaled {maxval : Nat} (h : 0 < maxval) (v : Nat) :
    ((rescale maxval v).toNat : Int) = scaled maxval v := by
  rw [scaled, ← Block.rounded_eq_round h, rescale_toNat v h, Nat.mul_comm]
  rfl

namespace Content

variable {c : Content} {start n i : Nat} {samples : List Nat}

def Carries (c : Content) (start n : Nat) (samples : List Nat) : Prop :=
  ∀ i, (h : i < samples.length) → ∀ j < n,
    c.byteAt (start + (i * n + j)) = (bytesOf n samples[i]).getD j 0

theorem carries_ofBytes (head : List UInt8) (samples : List Nat) (n : Nat) :
    (ofBytes (head ++ samples.flatMap (bytesOf n)).toArray).Carries head.length n samples := by
  intro i hi j hj
  show (head ++ samples.flatMap (bytesOf n)).toArray.getD (head.length + (i * n + j)) 0 = _
  rw [Array.getD_eq_getD_getElem?, List.getElem?_toArray, List.getElem?_append_right (by omega),
    Nat.add_sub_cancel_left, getElem?_flatMap_bytesOf hi hj, List.getD_eq_getElem?_getD]

theorem Carries.sample_byte (h : c.Carries start 1 samples) (hi : i < samples.length)
    (hv : samples[i] < 256) : (c.byteAt (start + i)).toNat = samples[i] := by
  have hbyte := h i hi 0 Nat.one_pos
  rw [Nat.mul_one, Nat.add_zero] at hbyte
  rw [hbyte]
  show (UInt8.ofNat samples[i]).toNat = samples[i]
  rw [UInt8.toNat_ofNat', Nat.mod_eq_of_lt hv]

theorem Carries.sample_word (h : c.Carries start 2 samples) (hi : i < samples.length)
    (hv : samples[i] < 65536) :
    bigEndian16 (c.byteAt (start + i * 2)) (c.byteAt (start + i * 2 + 1)) = samples[i] := by
  have hhigh := h i hi 0 Nat.two_pos
  have hlow := h i hi 1 Nat.one_lt_two
  rw [Nat.add_zero] at hhigh
  rw [← Nat.add_assoc] at hlow
  rw [hhigh, hlow]
  show bigEndian16 (UInt8.ofNat (samples[i] / 256)) (UInt8.ofNat samples[i]) = samples[i]
  simp only [bigEndian16, UInt8.toNat_ofNat']
  omega

end Content

theorem sample_index_lt {width height channels x y j : Nat} (hx : x < width) (hy : y < height)
    (hj : j < channels) :
    (y * width + x) * channels + j < width * height * channels := by
  have hrow := Word.row_end_le width hy
  have hpixel : (y * width + x + 1) * channels ≤ width * height * channels :=
    Nat.mul_le_mul_right _ (by omega)
  rw [Nat.succ_mul] at hpixel
  omega

namespace Netpbm.Header

variable {h : Header} {text : List UInt8} {samples : List Nat} {x y : Nat}

theorem Written.channels {text : List UInt8} (hw : h.Written text) :
    h.channels = 1 ∨ h.channels = 3 := by
  obtain ⟨_, _, _, _, _, _, ⟨_, hc⟩ | ⟨_, hc⟩, _⟩ := hw.entries
  · exact .inl hc
  · exact .inr hc

theorem Writes.begins (hw : h.Writes text samples) : h.Begins (text ++ h.encode samples) := by
  refine ⟨text, h.encode samples, rfl, (written_iff.mp hw.written).2.2, hw.length_text, ?_⟩
  rw [encode, length_flatMap_bytesOf, hw.length_samples, Nat.mul_assoc (h.width * h.height)]

theorem Writes.carries (hw : h.Writes text samples) :
    (Content.ofBytes (text ++ h.encode samples).toArray).Carries h.dataOffset h.bytesPerSample
      samples := by
  rw [hw.written.dataOffset]
  exact Content.carries_ofBytes text samples h.bytesPerSample

theorem Writes.sampleAt_slice (hw : h.Writes text samples) {c : Content}
    (hc : c.Carries h.dataOffset h.bytesPerSample samples) (hx : x < h.width) (hy : y < h.height)
    {j : Nat} (hj : j < h.channels) :
    h.sampleAt (c.slice (h.dataOffset + (y * h.width + x) * h.pixelBytes) h.pixelBytes)
      (j * h.bytesPerSample) =
      rescale h.maxval (samples.getD ((y * h.width + x) * h.channels + j) 0) := by
  have hi : (y * h.width + x) * h.channels + j < samples.length := by
    rw [hw.length_samples]
    exact sample_index_lt hx hy hj
  have hin : (j + 1) * h.bytesPerSample ≤ h.pixelBytes := Nat.mul_le_mul_right _ hj
  have hstart : h.dataOffset + (y * h.width + x) * h.pixelBytes + j * h.bytesPerSample =
      h.dataOffset + ((y * h.width + x) * h.channels + j) * h.bytesPerSample := by
    rw [Nat.add_mul _ j, pixelBytes, Nat.mul_assoc (y * h.width + x), Nat.add_assoc]
  have hv := hw.lt _ (List.getElem_mem hi)
  rw [List.getD_eq_getElem _ _ hi]
  unfold sampleAt
  congr 1
  by_cases hmax : 255 < h.maxval
  · have hbytes : h.bytesPerSample = 2 := if_pos hmax
    rw [if_pos hmax] at hv
    rw [hbytes] at hin hstart hc ⊢
    rw [if_pos rfl, c.getD_slice _ (by omega), c.getD_slice _ (by omega), ← Nat.add_assoc, hstart]
    exact hc.sample_word hi hv
  · have hbytes : h.bytesPerSample = 1 := if_neg hmax
    rw [if_neg hmax] at hv
    rw [hbytes] at hin hstart hc ⊢
    rw [if_neg (by decide), c.getD_slice _ (by omega), hstart, Nat.mul_one]
    exact hc.sample_byte hi hv

theorem Writes.pixel_eq (hw : h.Writes text samples) {c : Content}
    (hc : c.Carries h.dataOffset h.bytesPerSample samples) (hx : x < h.width) (hy : y < h.height) :
    h.pixel c x y = h.shown samples x y := by
  have hsample {j : Nat} (hj : j < h.channels) := hw.sampleAt_slice hc hx hy hj
  unfold pixel pixelAt shown sample
  obtain hone | hthree := hw.written.channels
  · have hgray := hsample (j := 0) (by omega)
    rw [Nat.zero_mul] at hgray
    simp only [if_pos hone, hgray]
    rfl
  · have hred := hsample (j := 0) (by omega)
    have hgreen := hsample (j := 1) (by omega)
    have hblue := hsample (j := 2) (by omega)
    rw [Nat.zero_mul] at hred
    rw [Nat.one_mul] at hgreen
    have hcolour : h.channels ≠ 1 := by omega
    simp only [if_neg hcolour, Nat.zero_add, hred, hgreen, hblue]

end Netpbm.Header

namespace Farbfeld.Header

variable {h : Header} {samples : List Nat} {x y : Nat}

theorem Writes.begins (hw : h.Writes samples) : h.Begins (h.encode samples) := by
  have hname : name.length = 8 := rfl
  have hwidth : (bytesOf 4 h.width).length = 4 := length_bytesOf 4 _
  have hheight : (bytesOf 4 h.height).length = 4 := length_bytesOf 4 _
  refine ⟨⟨?magic, ?width, ?height, hw.width_pos, hw.height_pos⟩, ?data⟩
  case magic =>
    rw [encode, List.append_assoc, List.append_assoc]
    exact List.take_left' hname
  case width =>
    rw [encode, List.append_assoc, List.append_assoc, List.drop_left' hname,
      List.take_left' hwidth, bigEndian_bytesOf hw.width_lt]
  case height =>
    have hhead : (name ++ bytesOf 4 h.width).length = 12 := by
      rw [List.length_append, hname, hwidth]
    rw [encode, List.append_assoc, List.drop_left' hhead, List.take_left' hheight,
      bigEndian_bytesOf hw.height_lt]
  case data =>
    simp only [encode, List.length_append, hname, hwidth, hheight, length_flatMap_bytesOf,
      hw.length_samples, headerBytes]
    omega

theorem carries_encode (h : Header) (samples : List Nat) :
    (Content.ofBytes (h.encode samples).toArray).Carries headerBytes 2 samples := by
  have hhead : (name ++ bytesOf 4 h.width ++ bytesOf 4 h.height).length = headerBytes := by
    rw [List.length_append, List.length_append, length_bytesOf, length_bytesOf]
    rfl
  rw [← hhead]
  exact Content.carries_ofBytes _ samples 2

theorem Writes.pixel_eq (hw : h.Writes samples) {c : Content} (hc : c.Carries headerBytes 2 samples)
    (hx : x < h.width) (hy : y < h.height) :
    h.pixel c x y = h.shown samples x y := by
  have hsample (j : Nat) (hj : j < 4) :
      sampleAt (c.slice (headerBytes + (y * h.width + x) * pixelBytes) pixelBytes) (2 * j) =
        rescale 65535 (h.sample samples x y j) := by
    have hi : (y * h.width + x) * 4 + j < samples.length := by
      rw [hw.length_samples]
      exact sample_index_lt hx hy hj
    have hstart : headerBytes + (y * h.width + x) * pixelBytes + 2 * j =
        headerBytes + ((y * h.width + x) * 4 + j) * 2 := by
      simp only [pixelBytes]
      omega
    have hin : 2 * j + 1 < pixelBytes := by
      simp only [pixelBytes]
      omega
    unfold sampleAt sample
    rw [List.getD_eq_getElem _ _ hi, c.getD_slice _ (by omega), c.getD_slice _ hin,
      ← Nat.add_assoc, hstart, hc.sample_word hi (hw.lt _ (List.getElem_mem hi))]
  unfold pixel pixelAt shown
  rw [hsample 0 (by decide), show sampleAt _ (0 + 2) = _ from hsample 1 (by decide),
    show sampleAt _ (0 + 4) = _ from hsample 2 (by decide),
    show sampleAt _ (0 + 6) = _ from hsample 3 (by decide)]

end Farbfeld.Header

section FullSize

theorem Image.sampled_solid {im : Image} {c : Rect} {o : Options} {P : Nat → Nat → Pixel}
    (hP : im.index.Holds im.feed.stream.content P) (hc : im.Clamped c) (hs : o.sampleSize = 1)
    (hsolid : ∀ x < im.width, ∀ y < im.height, (P x y).alpha = 255)
    (hreads : ∀ j < im.height, im.Reads c j) {y : Nat} (hy : y < c.height) :
    (o.painting (im.regionOf c o)).sampled (im.rows (im.regionOf c o) o) y =
      .ok (Array.ofFn fun x : Fin (im.regionOf c o).width =>
        P (c.left.toNat + x) (c.top.toNat + y)) := by
  have hl := hc.left
  have hr := hc.right
  have ht := hc.top
  have hb := hc.bottom
  obtain ⟨hwidth, hheight⟩ := @sampleSize_one im c o hs
  have hj : c.top.toNat + y < im.height := by
    simp only [Rect.height] at hy
    omega
  have hrow : im.rows (im.regionOf c o) o (c.top.toNat + y) = _ := (hreads _ hj).rowOf hP hc hj
  rw [sampled_full_size hc hs _ (hheight ▸ hy), hrow, Except.map]
  congr 2
  funext x
  have hx : (x : Nat) < c.width := hwidth ▸ x.isLt
  have halpha : (P (c.left.toNat + x) (c.top.toNat + y)).alpha ≠ 0 := by
    rw [hsolid _ (by simp only [Rect.width] at hx; omega) _ hj]
    decide
  rw [Array.getD_eq_getD_getElem?, Array.getElem?_ofFn, dif_pos hx, Option.getD_some,
    Pixel.visible_of_ne halpha, ite_self]

theorem Bitmap.Depicts.getElem?_bytes {b : Bitmap} {r : Region} {o : Options}
    {shown : Nat → Nat → Pixel} (h : b.Depicts r o shown) (hformat : r.format = .gray8) {x y : Nat}
    {v : UInt8} (hx : x < r.width) (hy : y < r.height) (hshown : shown x y = .gray v) :
    b.bytes[y * r.width + x]? = some v := by
  have hstores := h.pixel x hx y hy
  have hrow := Word.row_end_le r.width hy
  have hsize : b.bytes.size = r.width * r.height := by
    rw [h.size, Region.byteLength, hformat]
    simp [PixelFormat.imageBytes, PixelFormat.rowBytes, PixelFormat.bytesPerPixel]
  have hpixel : b.pixelBytes x y = b.bytes.extract (y * r.width + x) (y * r.width + x + 1) := by
    rw [pixelBytes, h.width, h.format, hformat]
    simp [PixelFormat.bytesPerPixel]
  have hin : y * r.width + x < b.bytes.size := by omega
  simp only [Coding.Stores, hformat, hshown, hpixel, Pixel.gray] at hstores
  have hfirst := congrArg (fun a => a[0]?) hstores
  simp only [Array.getElem?_map, Array.getElem?_extract, Nat.add_zero] at hfirst
  rw [if_pos (by omega), Array.getElem?_eq_getElem hin] at hfirst
  rw [Array.getElem?_eq_getElem hin]
  refine congrArg some (UInt8.toNat_inj.mp ?_)
  have hluma : (b.bytes[y * r.width + x]).toNat =
      (77 * v.toNat + 150 * v.toNat + 29 * v.toNat) / 256 := Option.some.inj hfirst
  omega

theorem Rect.size_part_row {c : Rect} {width height : Nat} {data : Array UInt8}
    (hsize : data.size = width * height) (hright : c.left.toNat + c.width ≤ width)
    (hbottom : c.top.toNat + c.height ≤ height) : ∀ y ∈ Array.range c.height,
    (data.extract ((c.top.toNat + y) * width + c.left.toNat)
      ((c.top.toNat + y) * width + c.left.toNat + c.width)).size = c.width := by
  intro y hy
  have hy := Array.mem_range.mp hy
  have hrow := Word.row_end_le width (show c.top.toNat + y < height by omega)
  rw [Array.size_extract]
  omega

theorem Rect.size_part {c : Rect} {width height : Nat} {data : Array UInt8}
    (hsize : data.size = width * height) (hright : c.left.toNat + c.width ≤ width)
    (hbottom : c.top.toNat + c.height ≤ height) :
    (c.part width data).size = c.width * c.height := by
  rw [part, Packing.size_flatMap (size_part_row hsize hright hbottom), Array.size_range,
    Nat.mul_comm]

theorem Rect.getElem?_part {c : Rect} {width height : Nat} {data : Array UInt8}
    (hsize : data.size = width * height) (hright : c.left.toNat + c.width ≤ width)
    (hbottom : c.top.toNat + c.height ≤ height) {x y : Nat} (hx : x < c.width) (hy : y < c.height) :
    (c.part width data)[y * c.width + x]? =
      data[(c.top.toNat + y) * width + (c.left.toNat + x)]? := by
  have hin : y < (Array.range c.height).size := by simpa using hy
  have hrow := Word.row_end_le width (show c.top.toNat + y < height by omega)
  rw [part, Packing.getElem?_flatMap (size_part_row hsize hright hbottom) hin hx,
    Array.getElem_range, Array.getElem?_extract, if_pos (by omega), Nat.add_assoc]

theorem Image.Clamped.ends {c : Rect} {im : Image} (hc : im.Clamped c) :
    c.left.toNat + c.width ≤ im.width ∧ c.top.toNat + c.height ≤ im.height := by
  obtain ⟨hl, hw, hr, ht, hh, hb, _, _⟩ := hc
  simp only [Rect.width, Rect.height]
  omega

theorem Bitmap.Depicts.bytes_eq_part {b : Bitmap} {c : Rect} {o : Options} {im : Image}
    {P : Nat → Nat → Pixel} {data : Array UInt8}
    (h : b.Depicts (im.regionOf c o) o fun x y => P (c.left.toNat + x) (c.top.toNat + y))
    (hc : im.Clamped c) (hs : o.sampleSize = 1) (hformat : o.format = some .gray8)
    (hsize : data.size = im.width * im.height)
    (hP : ∀ x < im.width, ∀ y < im.height, ∃ v, P x y = .gray v ∧
      data[y * im.width + x]? = some v) : b.bytes = c.part im.width data := by
  obtain ⟨hwidth, hheight⟩ := @Image.sampleSize_one im c o hs
  have hgray : (im.regionOf c o).format = .gray8 := by
    show o.format.getD _ = .gray8
    rw [hformat]
    rfl
  obtain ⟨hright, hbottom⟩ := hc.ends
  have hpart := Rect.size_part hsize hright hbottom
  have hbytes : b.bytes.size = c.width * c.height := by
    rw [h.size, Region.byteLength, hgray, hwidth, hheight]
    simp [PixelFormat.imageBytes, PixelFormat.rowBytes, PixelFormat.bytesPerPixel]
  apply Array.ext_getElem?
  intro i
  by_cases hi : i < c.width * c.height
  · have hpos : 0 < c.width := Nat.pos_of_mul_pos_right (Nat.zero_lt_of_lt hi)
    have hy : i / c.width < c.height := Nat.div_lt_of_lt_mul hi
    have hx : i % c.width < c.width := Nat.mod_lt _ hpos
    obtain ⟨v, hgrayed, hdata⟩ := hP (c.left.toNat + i % c.width) (by omega)
      (c.top.toNat + i / c.width) (by omega)
    have hshown := h.getElem?_bytes hgray (hwidth ▸ hx) (hheight ▸ hy) hgrayed
    have hcopied := Rect.getElem?_part hsize hright hbottom hx hy
    rw [hwidth, Nat.div_add_mod'] at hshown
    rw [Nat.div_add_mod'] at hcopied
    rw [hshown, hcopied, hdata]
  · rw [Array.getElem?_eq_none (by omega), Array.getElem?_eq_none (by omega)]

end FullSize

theorem Index.readRow_of_holds {index : Index} {bytes : Array UInt8} {P : Nat → Nat → Pixel}
    (hlength : bytes.size < Word.greatest) (hdata : index.dataEnd ≤ bytes.size)
    (hP : index.Holds (.ofBytes bytes) P) {f : Feed}
    (hf : ∃ position, f.stream = (Stream.ofBytes bytes).turned position) {x y count : Nat}
    (hx : x + count ≤ index.width) (hy : y < index.height) :
    (index.readRow f y x count).1 = .ok (Array.ofFn fun i : Fin count => P (x + i) y) := by
  obtain ⟨position, hf⟩ := hf
  rw [readRow_fst, hf, Stream.answers_turned]
  have hword := Word.lt_of_lt_greatest hlength
  exact rowOf_of_holds (Stream.inMemory_ofBytes bytes) hword hdata hP hx hy

namespace Viewer

variable {s t : Stream} {config config' : Config} {v : Viewer} {e : Encoding} {index : Index}

theorem eq_of_unlimited (ho : (openStream s config).1 = .ok v)
    (hu : (openStream s config.unlimited).1 = .ok (ofIndex e config' index t)) :
    v.image.index = index ∧ v.encoding = e ∧ v.width = index.width ∧ v.height = index.height := by
  have hv : v.unlimited = ofIndex e config' index t :=
    Except.ok.inj ((openStream_unlimited ho).symm.trans hu)
  exact ⟨congrArg (fun v => v.image.index) hv, congrArg encoding hv, congrArg width hv,
    congrArg height hv⟩

def Shows (v : Viewer) (f : Feed) (Q : Nat → Nat → Pixel → Prop) : Prop :=
  ∀ y x count, y < v.height → x + count ≤ v.width →
    ∃ row, (v.image.index.readRow f y x count).1 = .ok row ∧ row.size = count ∧
      ∀ i p, row[i]? = some p → Q (x + i) y p

def Serves (v : Viewer) (rect : Rect) (o : Options) (stop : Stop) (bytes : Array UInt8) : Prop :=
  (∀ storage, v.image.allocator.allot bytes.size = .storage storage → bytes.size ≤ storage.size →
    ∃ b r, (v.decode rect o stop).1.result = .ok (.decoded (b, r)) ∧ b.bytes = bytes) ∧
  ∀ target : Bitmap, bytes.size ≤ target.capacity →
    ∃ r, (v.decodeInto rect o target stop).1.result = .ok (.decoded r) ∧
      (v.decodeInto rect o target stop).2.1.bytes = bytes

theorem serves_part {c rect : Rect} {o : Options} {stop : Stop} {P : Nat → Nat → Pixel}
    {data : Array UInt8} (hP : v.image.index.Holds v.image.feed.stream.content P)
    (hc : v.image.bounds.intersect? rect = some c)
    (hreads : ∀ j < v.image.height, v.image.Reads c j)
    (hsize : data.size = v.image.width * v.image.height)
    (hgray : ∀ x < v.image.width, ∀ y < v.image.height, ∃ b, P x y = .gray b ∧
      data[y * v.image.width + x]? = some b) (hs : o.sampleSize = 1)
    (hformat : o.format = some .gray8)
    (hl : Limits.Admits v.image.limits.regionBytes (c.width * c.height))
    (hstop : ∀ k ≤ c.height, stop k = none) :
    v.Serves rect o stop (c.part v.image.width data) := by
  have hclamped := Image.clamped_of_intersect? hc
  obtain ⟨hright, hbottom⟩ := hclamped.ends
  obtain ⟨hwidth, hheight⟩ := @Image.sampleSize_one v.image c o hs
  have hlength : (v.image.regionOf c o).byteLength = c.width * c.height := by
    have hgrayed : (v.image.regionOf c o).format = .gray8 := by
      show o.format.getD _ = .gray8
      rw [hformat]
      rfl
    rw [Region.byteLength, hgrayed, hwidth, hheight]
    simp [PixelFormat.imageBytes, PixelFormat.rowBytes, PixelFormat.bytesPerPixel]
  have hsolid : ∀ x < v.image.width, ∀ y < v.image.height, (P x y).alpha = 255 := by
    intro x hx y hy
    obtain ⟨b, hb, _⟩ := hgray x hx y hy
    rw [hb]
    rfl
  have hplan : v.image.plan rect o stop = .ok (v.image.regionOf c o) :=
    Image.plan_eq_ok (hs ▸ Nat.one_pos) (hstop 0 (Nat.zero_le _)) hc (hlength ▸ hl)
  have hstop' : ∀ k ≤ (v.image.regionOf c o).height, stop k = none := fun k hk =>
    hstop k (hheight ▸ hk)
  let shown (x y : Nat) : Pixel := P (c.left.toNat + x) (c.top.toNat + y)
  have hshown : ∀ y < (v.image.regionOf c o).height,
      (o.painting (v.image.regionOf c o)).sampled (v.image.rows (v.image.regionOf c o) o) y =
        .ok (Array.ofFn fun x : Fin (v.image.regionOf c o).width => shown x y) :=
    fun y hy => Image.sampled_solid hP hclamped hs hsolid hreads (hheight ▸ hy)
  unfold Serves
  rw [Rect.size_part hsize hright hbottom, ← hlength]
  constructor
  · intro storage ha hstorage
    obtain ⟨b, hresult, _, hdepicts⟩ := Image.decode_depicts hplan hstop' hshown ha hstorage
    refine ⟨b, v.image.regionOf c o, hresult, ?_⟩
    exact hdepicts.bytes_eq_part hclamped hs hformat hsize hgray
  · intro target hcapacity
    obtain ⟨hresult, _, hdepicts⟩ := Image.decodeInto_depicts hplan hstop' hshown hcapacity
    exact ⟨_, hresult, hdepicts.bytes_eq_part hclamped hs hformat hsize hgray⟩

end Viewer

namespace Netpbm.Header

variable {h : Header} {text : List UInt8} {samples : List Nat} {config : Config}

structure Scales (h : Header) (samples : List Nat) (x y : Nat) (p : Pixel) : Prop where
  red : (p.red.toNat : Int) = scaled h.maxval (h.sample samples x y 0)
  green : (p.green.toNat : Int) = scaled h.maxval (h.sample samples x y 1)
  blue : (p.blue.toNat : Int) = scaled h.maxval (h.sample samples x y 2)
  alpha : p.alpha = 255

theorem Writes.opens (hw : h.Writes text samples)
    (hlength : (text ++ h.encode samples).toArray.size < Word.greatest)
    (hlimits : config.limits = .none) :
    ∃ t, (Viewer.openStream (.ofBytes (text ++ h.encode samples).toArray) config).1 =
      .ok (Viewer.ofIndex .pnm config (.pnm h) t) := by
  obtain ⟨hwidth, hheight, _⟩ := written_iff.mp hw.written
  obtain ⟨ho, _⟩ := (Viewer.opens_pnm_iff hlength hlimits).mpr
    ⟨h, ⟨hwidth, hheight, hw.begins⟩, rfl⟩
  exact ⟨_, ho⟩

theorem Writes.dataEnd_le (hw : h.Writes text samples)
    (hlength : (text ++ h.encode samples).toArray.size < Word.greatest) :
    (Index.pnm h).dataEnd ≤ (text ++ h.encode samples).toArray.size := by
  obtain ⟨hwidth, hheight, _⟩ := written_iff.mp hw.written
  exact data_le ((finds_iff hlength).mpr ⟨hwidth, hheight, hw.begins⟩).2.2 hlength

theorem Writes.holds (hw : h.Writes text samples) :
    (Index.pnm h).Holds (.ofBytes (text ++ h.encode samples).toArray) (h.shown samples) :=
  ⟨hw.written.channels, fun _ hx _ hy => (hw.pixel_eq hw.carries hx hy).symm⟩

theorem Writes.gray_bytes (hw : h.Writes text samples) (hchannels : h.channels = 1)
    (hmaxval : h.maxval = 255) {x y : Nat} (hx : x < h.width) (hy : y < h.height) :
    ∃ b, h.shown samples x y = .gray b ∧ (h.encode samples)[y * h.width + x]? = some b := by
  have hi : y * h.width + x < samples.length := by
    have hrow := Word.row_end_le h.width hy
    rw [hw.length_samples, hchannels]
    omega
  have hv := hw.lt _ (List.getElem_mem hi)
  have hone : ¬255 < h.maxval := by omega
  rw [if_neg hone] at hv
  have hsample (c : Nat) : h.sample samples x y c = samples[y * h.width + x] := by
    rw [sample, if_pos hchannels, hchannels, Nat.mul_one, Nat.add_zero, List.getD_eq_getElem _ _ hi]
  have hbyte := getElem?_flatMap_bytesOf hi Nat.one_pos
  rw [Nat.mul_one, Nat.add_zero] at hbyte
  refine ⟨UInt8.ofNat samples[y * h.width + x], ?_, ?_⟩
  · rw [shown, hsample, hsample, hsample, hmaxval, rescale_255 (Nat.le_of_lt_succ hv)]
    rfl
  · rw [encode, if_neg hone, hbyte]
    rfl

end Netpbm.Header

namespace Farbfeld.Header

variable {h : Header} {samples : List Nat} {config : Config}

structure Scales (h : Header) (samples : List Nat) (x y : Nat) (p : Pixel) : Prop where
  red : (p.red.toNat : Int) = scaled 65535 (h.sample samples x y 0)
  green : (p.green.toNat : Int) = scaled 65535 (h.sample samples x y 1)
  blue : (p.blue.toNat : Int) = scaled 65535 (h.sample samples x y 2)
  alpha : (p.alpha.toNat : Int) = scaled 65535 (h.sample samples x y 3)

theorem Writes.opens (hw : h.Writes samples)
    (hlength : (h.encode samples).toArray.size < Word.greatest) (hlimits : config.limits = .none) :
    ∃ t, (Viewer.openStream (.ofBytes (h.encode samples).toArray) config).1 =
      .ok (Viewer.ofIndex .farbfeld config (.farbfeld h) t) := by
  obtain ⟨ho, _⟩ := (Viewer.opens_farbfeld_iff hlength hlimits).mpr ⟨h, hw.begins, rfl⟩
  exact ⟨_, ho⟩

theorem Writes.dataEnd_le (hw : h.Writes samples)
    (hlength : (h.encode samples).toArray.size < Word.greatest) :
    (Index.farbfeld h).dataEnd ≤ (h.encode samples).toArray.size :=
  data_le ((finds_iff hlength).mpr hw.begins).2.2 hlength

theorem Writes.holds (hw : h.Writes samples) :
    (Index.farbfeld h).Holds (.ofBytes (h.encode samples).toArray) (h.shown samples) :=
  fun _ hx _ hy => (hw.pixel_eq (h.carries_encode samples) hx hy).symm

end Farbfeld.Header

namespace Viewer

theorem shows_of_holds {v : Viewer} {bytes : Array UInt8} {index : Index} {P : Nat → Nat → Pixel}
    {Q : Nat → Nat → Pixel → Prop} (hindex : v.image.index = index) (hwidth : v.width = index.width)
    (hheight : v.height = index.height) (hlength : bytes.size < Word.greatest)
    (hdata : index.dataEnd ≤ bytes.size) (hP : index.Holds (.ofBytes bytes) P)
    (hQ : ∀ x y, Q x y (P x y)) {f : Feed}
    (hf : ∃ position, f.stream = (Stream.ofBytes bytes).turned position) : v.Shows f Q := by
  intro y x count hy hx
  rw [hwidth] at hx
  rw [hheight] at hy
  refine ⟨_, hindex ▸ Index.readRow_of_holds hlength hdata hP hf hx hy, Array.size_ofFn, ?_⟩
  intro i p hp
  obtain ⟨hi, rfl⟩ := Array.getElem?_eq_some_iff.mp hp
  rw [Array.getElem_ofFn]
  exact hQ _ _

/-- Rows of a file that was written from samples show the samples, whatever the spelling of the
header and wherever the cursor of the stream stands. A graymap of bytes is decoded at full size to
the bytes that were written. -/
theorem reading_undoes_writing (config : Config) :
    (∀ (h : Netpbm.Header) (text : List UInt8) (samples : List Nat), h.Writes text samples →
      let file := (text ++ h.encode samples).toArray
      file.size < Word.greatest →
      (config.limits = .none → ∃ v, (openStream (.ofBytes file) config).1 = .ok v) ∧
      ∀ v, (openStream (.ofBytes file) config).1 = .ok v →
        v.encoding = .pnm ∧ v.width = h.width ∧ v.height = h.height ∧
        ∀ f : Feed, (∃ position, f.stream = (Stream.ofBytes file).turned position) →
          v.Shows f (h.Scales samples) ∧
          (h.channels = 1 → h.maxval = 255 → ∀ a rect c o stop,
            v.image.bounds.intersect? rect = some c → o.sampleSize = 1 → o.format = some .gray8 →
            Limits.Admits v.image.limits.regionBytes (c.width * c.height) →
            (∀ k ≤ c.height, stop k = none) →
            (v.fedBy f a).Serves rect o stop (c.part h.width (h.encode samples).toArray))) ∧
    ∀ (h : Farbfeld.Header) (samples : List Nat), h.Writes samples →
      let file := (h.encode samples).toArray
      file.size < Word.greatest →
      (config.limits = .none → ∃ v, (openStream (.ofBytes file) config).1 = .ok v) ∧
      ∀ v, (openStream (.ofBytes file) config).1 = .ok v →
        v.encoding = .farbfeld ∧ v.width = h.width ∧ v.height = h.height ∧
        ∀ f : Feed, (∃ position, f.stream = (Stream.ofBytes file).turned position) →
          v.Shows f (h.Scales samples) := by
  constructor
  · intro h text samples hw file hlength
    have hdata := hw.dataEnd_le hlength
    refine ⟨fun hlimits => (hw.opens hlength hlimits).imp' _ fun _ ho => ho, fun v ho => ?_⟩
    obtain ⟨t, hu⟩ := hw.opens hlength (show config.unlimited.limits = .none from rfl)
    obtain ⟨hindex, hencoding, hwidth, hheight⟩ := eq_of_unlimited ho hu
    refine ⟨hencoding, hwidth, hheight, fun f hf => ⟨?shows, ?serves⟩⟩
    case shows =>
      refine shows_of_holds hindex hwidth hheight hlength hdata hw.holds (fun x y => ?_) hf
      have hpos := hw.written.maxval_pos
      exact ⟨rescale_eq_scaled hpos _, rescale_eq_scaled hpos _, rescale_eq_scaled hpos _, rfl⟩
    case serves =>
      intro hchannels hmaxval a rect c o stop hc hs hformat hl hstop
      have himage : v.image.width = h.width ∧ v.image.height = h.height := by
        simp only [Image.width, Image.height, hindex, Index.width, Index.height, and_self]
      have hP : v.image.index.Holds f.stream.content (h.shown samples) := by
        obtain ⟨position, hf⟩ := hf
        rw [hindex, hf]
        exact hw.holds
      have hreads : ∀ j < v.image.height, (v.fedBy f a).image.Reads c j := by
        intro j hj
        have hends := (Image.clamped_of_intersect? hc).ends
        exact ⟨_, hindex ▸ Index.readRow_of_holds hlength hdata hw.holds hf (himage.1 ▸ hends.1)
          (himage.2 ▸ hj)⟩
      have hsize : (h.encode samples).toArray.size = v.image.width * v.image.height := by
        have hone : ¬255 < h.maxval := by omega
        rw [himage.1, himage.2, List.size_toArray, Netpbm.Header.encode, if_neg hone,
          length_flatMap_bytesOf, hw.length_samples, hchannels, Nat.mul_one, Nat.mul_one]
      rw [← himage.1]
      refine serves_part hP hc hreads hsize (fun x hx y hy => ?_) hs hformat hl hstop
      have hx : x < h.width := himage.1 ▸ hx
      have hy : y < h.height := himage.2 ▸ hy
      obtain ⟨b, hgray, hbyte⟩ := hw.gray_bytes hchannels hmaxval hx hy
      refine ⟨b, hgray, ?_⟩
      rw [List.getElem?_toArray, ← hbyte, ← himage.1]
      rfl
  · intro h samples hw file hlength
    refine ⟨fun hlimits => (hw.opens hlength hlimits).imp' _ fun _ ho => ho, fun v ho => ?_⟩
    obtain ⟨t, hu⟩ := hw.opens hlength (show config.unlimited.limits = .none from rfl)
    obtain ⟨hindex, hencoding, hwidth, hheight⟩ := eq_of_unlimited ho hu
    refine ⟨hencoding, hwidth, hheight, fun f hf => ?_⟩
    have hpos : 0 < 65535 := by decide
    exact shows_of_holds hindex hwidth hheight hlength (hw.dataEnd_le hlength) hw.holds
      (fun x y => ⟨rescale_eq_scaled hpos _, rescale_eq_scaled hpos _, rescale_eq_scaled hpos _,
        rescale_eq_scaled hpos _⟩) hf

def squareText : List UInt8 := [0x50, 0x35, 0x20, 0x32, 0x20, 0x32, 0x20, 0x32, 0x35, 0x35, 0x0A]

theorem writes_square :
    Netpbm.Header.Writes ⟨1, 2, 2, 255, 11⟩ squareText [10, 20, 30, 40] := by
  have hspelled : Netpbm.Header.Spelled ⟨1, 2, 2, 255, 11⟩ squareText := by
    refine ⟨?_, by decide, by decide, by decide, by decide, rfl⟩
    exact ⟨0x35, [0x20, 0x32], [0x20, 0x32], [0x20, 0x32, 0x35, 0x35], 0x0A, rfl,
      .inl ⟨rfl, rfl⟩, field_of_digit rfl, field_of_digit rfl, field_255, rfl⟩
  exact ⟨Netpbm.Header.written_iff.mpr ⟨by decide, by decide, hspelled⟩, by decide, rfl, by decide⟩

theorem reading_undoes_writing_of_square :
    let h : Netpbm.Header := ⟨1, 2, 2, 255, 11⟩
    let file : Array UInt8 := (squareText ++ h.encode [10, 20, 30, 40]).toArray
    let dot : Array UInt8 := (Farbfeld.Header.encode ⟨1, 1⟩ [65535, 0, 128, 65535]).toArray
    (∃ v, (openStream (.ofBytes file) .standard).1 = .ok v ∧
      v.Shows (.ofStream (.ofBytes file)) (h.Scales [10, 20, 30, 40]) ∧
      (v.fedBy (.ofStream (.ofBytes file)) .heap).Serves ⟨1, 0, 5, 5⟩
        ⟨1, some .gray8, true, true, true⟩ .never #[20, 40]) ∧
    ∃ v, (openStream (.ofBytes dot) .standard).1 = .ok v ∧
      v.Shows (.ofStream (.ofBytes dot))
        (Farbfeld.Header.Scales ⟨1, 1⟩ [65535, 0, 128, 65535]) := by
  intro h file dot
  obtain ⟨hpnm, hfarbfeld⟩ := reading_undoes_writing .standard
  constructor
  · obtain ⟨hopens, hreads⟩ := hpnm h squareText [10, 20, 30, 40] writes_square (by decide)
    obtain ⟨v, ho⟩ := hopens rfl
    obtain ⟨_, hwidth, hheight, hfed⟩ := hreads v ho
    obtain ⟨hshows, hserves⟩ := hfed (.ofStream (.ofBytes file)) ⟨0, rfl⟩
    have hopened := opened_of_openStream (Prod.ext ho rfl)
    have hlimits : v.image.limits = .none := hopened.limits
    have hc : v.image.bounds.intersect? ⟨1, 0, 5, 5⟩ = some ⟨1, 0, 2, 2⟩ := by
      rw [Image.bounds, ← hopened.width, ← hopened.height, hwidth, hheight]
      decide
    have hcolumn : Rect.part ⟨1, 0, 2, 2⟩ 2 (h.encode [10, 20, 30, 40]).toArray = #[20, 40] := by
      decide +kernel
    have hadmits : Limits.Admits v.image.limits.regionBytes 2 := by
      rw [hlimits]
      intro _ hm
      cases hm
    refine ⟨v, ho, hshows, ?_⟩
    rw [← hcolumn]
    exact hserves rfl rfl .heap _ _ _ .never hc rfl rfl hadmits (Stop.never_passes _)
  · obtain ⟨hopens, hreads⟩ := hfarbfeld ⟨1, 1⟩ [65535, 0, 128, 65535]
      ⟨by decide, by decide, by decide, by decide, rfl, by decide⟩ (by decide)
    obtain ⟨v, ho⟩ := hopens rfl
    exact ⟨v, ho, (hreads v ho).2.2.2 _ ⟨0, rfl⟩⟩

end Viewer

end ImageRegion
