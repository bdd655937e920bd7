import ClipLedger.Capture.Source
import ClipLedger.Proofs.Files.Fresh
import ClipLedger.Proofs.Files.Writable
import ClipLedger.Proofs.Text.Utf8

/-
  What capturing does to the files. An image is stored as a file that is named by its fingerprint,
  and only where its path leads to nothing; the folder for images is made first. So whatever holds
  of the tree, holds when that folder is made and holds when such a file is written, holds after a
  capture (`store_induct`, `capture_files`). No file loses a byte by it unless the folder is made
  by a detour over double dots (`Harmless`).
-/
namespace ClipLedger

open FileTree (Apart Extends Grows Housed Keeps)

namespace Assets

/-! ## Where images are stored -/

theorem slash_not_mem_fileName (f : Fingerprint) : Path.slash ∉ (fileName f).bytes := by
  have hdigit : ∀ n < 16, '/' ≠ Hex.digit n := by decide
  intro h
  have hmem : '/' ∈ f.hex ++ ".png".toList := Utf8.mem_encode_ascii (by decide) h
  rcases List.mem_append.1 hmem with hhex | hext
  · obtain ⟨b, -, hb⟩ := List.mem_flatMap.1 hhex
    have hlt := b.toNat_lt
    rcases List.mem_cons.1 hb with hb | hb
    · exact hdigit (b.toNat / 16) (by omega) hb
    · exact hdigit (b.toNat % 16) (by omega) (List.mem_singleton.1 hb)
  · exact absurd hext (by decide)

/-- The name of an image ends in its extension. -/
theorem fileName_bytes (f : Fingerprint) :
    (fileName f).bytes = Utf8.encode f.hex ++ Utf8.encode ".png".toList :=
  Utf8.encode_append f.hex ".png".toList

/-- The name of an image is not empty, and is neither of the names that consist of dots. -/
theorem fileName_plain (f : Fingerprint) : (fileName f).bytes ≠ [] ∧
    (fileName f).bytes ≠ [Path.dot] ∧ (fileName f).bytes ≠ [Path.dot, Path.dot] := by
  have hlen : 4 ≤ (fileName f).bytes.length := by
    have hext : (Utf8.encode ".png".toList).length = 4 := by decide +kernel
    rw [fileName_bytes, List.length_append, hext]
    exact Nat.le_add_left 4 _
  refine ⟨?_, ?_, ?_⟩
  all_goals
    intro h
    rw [h] at hlen
    exact absurd hlen (by decide)

theorem isAbsolute_fileName (f : Fingerprint) : (fileName f).isAbsolute = false := by
  rw [Path.isAbsolute, beq_eq_false_iff_ne]
  exact fun h => slash_not_mem_fileName f (List.mem_of_mem_head? h)

/-- The location of an image is the folder's path, a slash if none is there, and the name. -/
theorem location_bytes {folder : Path} (hne : folder.bytes ≠ []) (f : Fingerprint) :
    (location folder f).bytes = folder.bytes ++ (fileName f).bytes ∧
        folder.endsInSlash = true ∨
      (location folder f).bytes = folder.bytes ++ Path.slash :: (fileName f).bytes ∧
        folder.endsInSlash = false := by
  have habs := isAbsolute_fileName f
  cases hend : folder.endsInSlash with
  | true => exact .inl ⟨by simp [location, Path.join, habs, hend], rfl⟩
  | false => exact .inr ⟨by simp [location, Path.join, habs, hend, hne], rfl⟩

theorem isAbsolute_location {folder : Path} (hne : folder.bytes ≠ []) (f : Fingerprint) :
    (location folder f).isAbsolute = folder.isAbsolute := by
  unfold Path.isAbsolute
  rcases location_bytes hne f with ⟨hbytes, -⟩ | ⟨hbytes, -⟩
  · rw [hbytes, List.head?_append_of_ne_nil _ hne]
  · rw [hbytes, List.head?_append_of_ne_nil _ hne]

/-- The steps to an image are those of the folder and then its name. -/
theorem steps_location {folder : Path} (hne : folder.bytes ≠ []) (f : Fingerprint) :
    (location folder f).steps = folder.withoutSlashes.steps ++ [(fileName f).bytes] := by
  have hslash := slash_not_mem_fileName f
  have hname := (fileName_plain f).1
  have hlast : (location folder f).endsInSlash = false := by
    have hgetLast : (location folder f).bytes.getLast? = (fileName f).bytes.getLast? := by
      rcases location_bytes hne f with ⟨hbytes, -⟩ | ⟨hbytes, -⟩
      · rw [hbytes, List.getLast?_append_of_ne_nil _ hname]
      · rw [hbytes, List.getLast?_append_of_ne_nil _ (List.cons_ne_nil _ _),
          List.getLast?_cons_of_ne_nil hname]
    rw [Path.endsInSlash, hgetLast, beq_eq_false_iff_ne]
    exact fun h => hslash (List.mem_of_getLast? h)
  rw [Path.steps, hlast, Path.steps_withoutSlashes]
  rcases location_bytes hne f with ⟨hbytes, hend⟩ | ⟨hbytes, -⟩
  · obtain ⟨before, hfolder⟩ : ∃ before, folder.bytes = before ++ [Path.slash] :=
      List.getLast?_eq_some_iff.1 (eq_of_beq hend)
    rw [hbytes, hfolder, List.append_assoc, List.singleton_append,
      List.splitOn_append_cons_self, List.splitOn_append_cons_self,
      List.splitOn_eq_singleton hslash]
    simp [hname]
  · rw [hbytes, List.splitOn_append_cons_self, List.splitOn_eq_singleton hslash]
    simp [hname]

/-- If the path of the folder is text, so is that of every image in it. -/
theorem decode_location {folder : Path} {t : Text}
    (h : Utf8.decode? folder.bytes = some t) (f : Fingerprint) :
    ∃ u, Utf8.decode? (location folder f).bytes = some u := by
  rw [Utf8.decode?_eq_some_iff] at h
  have hslash : Utf8.encode ['/'] = [Path.slash] := by decide +kernel
  unfold location Path.join
  split
  · exact ⟨_, Utf8.decode?_encode _⟩
  split
  · refine ⟨t ++ (f.hex ++ ".png".toList), (Utf8.decode?_eq_some_iff _ _).2 ?_⟩
    rw [Utf8.encode_append, h]
    rfl
  · refine ⟨t ++ ['/'] ++ (f.hex ++ ".png".toList), (Utf8.decode?_eq_some_iff _ _).2 ?_⟩
    rw [Utf8.encode_append, Utf8.encode_append, h, hslash, List.append_assoc]
    rfl

/-! ## Storing an image -/

/-- Induction over `Assets.store`: `P` has to hold before, of the tree where the folder was made,
and after a write at a location where no image was. -/
theorem store_induct (P : FileTree → Prop) {t : FileTree} {folder : Path} (ht : P t)
    (hmake : P (t.makeFolders folder).2)
    (hwrite : ∀ f bytes t₁, t.holds (location folder f) = false →
      t.makeFolders folder = (.ok (), t₁) → P t₁ → P (t₁.write (location folder f) bytes).2)
    (image : Path) : P (Assets.store t folder image).2 := by
  unfold store
  split
  · exact ht
  next bytes _ =>
  dsimp only
  split
  · exact ht
  next hnot =>
  split
  · next h => exact snd_of_eq h hmake
  · next t₁ h =>
    have hstored := hwrite (.of bytes) bytes t₁ (Bool.not_eq_true _ ▸ hnot) h (snd_of_eq h hmake)
    split
    · next h₂ => exact snd_of_eq h₂ hstored
    · next h₂ => exact snd_of_eq h₂ hstored

theorem store_eq_ok {t t' : FileTree} {folder image path : Path} {f : Fingerprint}
    (h : Assets.store t folder image = (.ok (path, f), t')) : path = location folder f := by
  unfold store at h
  split at h
  · cases h
  dsimp only at h
  split at h
  · cases h
    rfl
  split at h
  · cases h
  · split at h
    · cases h
    · cases h
      rfl

/-- `Assets.store` keeps every file that is `Apart` from all images. -/
theorem store_keeps {t : FileTree} {folder p : Path} (ha : ∀ f, Apart t (location folder f) p)
    (image : Path) : Keeps t (Assets.store t folder image).2 p := by
  have hmake := FileTree.makeFolders_keeps t folder p
  refine store_induct (Keeps t · p) (.refl t p) hmake (fun f bytes t₁ _ _ h₁ => ?_) image
  exact h₁.trans ((FileTree.write_puts t₁ _ bytes).keeps (h₁.links.apart (ha f)))

theorem store_grows (t : FileTree) (folder image : Path) :
    Grows t (Assets.store t folder image).2 := by
  have hmake := FileTree.makeFolders_grows t folder
  exact store_induct (Grows t) (.refl t) hmake
    (fun f bytes t₁ _ _ h₁ => h₁.trans (FileTree.write_puts t₁ _ bytes).grows) image

theorem store_writable {t : FileTree} {folder p : Path} (hp : t.Writable p)
    (hclear : ∀ q ∈ folder :: folder.parents, Apart t q p) (image : Path) :
    (Assets.store t folder image).2.Writable p := by
  have hmake := FileTree.makeFolders_writable hp hclear
  refine store_induct (·.Writable p) hp hmake (fun f bytes t₁ _ _ h₁ => ?_) image
  exact (FileTree.write_puts t₁ _ bytes).writable h₁

/-- `makeFolders` puts no image at a location where none was, if the path of the folder is
`Clear`. -/
theorem holds_location_of_makeFolders {t t₁ : FileTree} (ht : Housed t) {folder : Path}
    (hclear : t.Clear folder) (hmade : t.makeFolders folder = (.ok (), t₁)) {f : Fingerprint}
    (hnot : t.holds (location folder f) = false) : t₁.holds (location folder f) = false := by
  rcases FileTree.makeFolders_cases ht hclear hmade with ⟨rfl, -⟩ | ⟨-, hbare⟩
  · exact hnot
  have hne : folder.bytes ≠ [] := by
    obtain ⟨loc, hloc, -⟩ := hbare
    intro hempty
    have hfault := (FileTree.find_folder_iff.1 hloc).1
    rw [Path.fault?, hempty] at hfault
    cases hfault
  unfold FileTree.holds
  cases hfind : t₁.find (location folder f) with
  | error e => rfl
  | ok place =>
    have hplace := FileTree.find_eq_ok.1 hfind
    unfold FileTree.place at hplace
    split at hplace
    · cases hplace
    rw [steps_location hne, FileTree.origin, isAbsolute_location hne] at hplace
    have hempty : ∀ x ∈ ([] : List Bytes), x = [Path.dot] := List.forall_mem_nil _
    exact absurd hplace (hbare.walk_ne hempty (fileName_plain f) place.1 place.2)

/-- What keeps the file at `p` from being overwritten with an image: no location of an image leads
to it, or the folder is there, or the path of the folder `IsPlain`. -/
def Harmless (t : FileTree) (folder p : Path) : Prop :=
  (∀ f, Apart t (location folder f) p) ∨ t.isFolder folder = true ∨ (Housed t ∧ folder.IsPlain)

theorem Harmless.of_grows {t t' : FileTree} {folder p : Path} (h : Harmless t folder p)
    (hgrows : Grows t t') : Harmless t' folder p := by
  rcases h with hapart | hfolder | ⟨ht, hplain⟩
  · exact .inl fun f => hgrows.links.apart (hapart f)
  · exact .inr (.inl (hgrows.isFolder hfolder))
  · exact .inr (.inr ⟨hgrows.housed ht, hplain⟩)

theorem store_extends {t : FileTree} {folder p : Path} (h : Harmless t folder p) (image : Path) :
    Extends t (Assets.store t folder image).2 p := by
  have hnew : (∀ f t₁, t.holds (location folder f) = false →
      t.makeFolders folder = (.ok (), t₁) → t₁.holds (location folder f) = false) →
      Extends t (Assets.store t folder image).2 p := by
    intro hstill
    have hmake : Extends t (t.makeFolders folder).2 p :=
      (FileTree.makeFolders_grows t folder).extends_of_keeps
        (FileTree.makeFolders_keeps t folder p)
    exact store_induct (Extends t · p) (.refl t p) hmake (fun f bytes t₁ hnot h h₁ =>
      h₁.trans (FileTree.write_extends (hstill f t₁ hnot h) bytes p)) image
  rcases h with hapart | hfolder | ⟨ht, hplain⟩
  · exact (store_grows t folder image).extends_of_keeps (store_keeps hapart image)
  · refine hnew fun f t₁ hnot h => ?_
    rw [FileTree.makeFolders_of_isFolder hfolder] at h
    cases h
    exact hnot
  · have hclear := t.clear_of_isPlain hplain
    exact hnew fun f t₁ hnot h => holds_location_of_makeFolders ht hclear h hnot

end Assets

namespace Source

/-! ## Capturing -/

/-- `capture` leaves the files as they are, or stores one image. -/
theorem capture_files (s : Source) (t : FileTree) (reading : Reading) :
    (s.capture t reading).2 = t ∨
      ∃ shot, (s.capture t reading).2 = (Assets.store t s.assets shot).2 := by
  have himage : (s.captureImage t).2 = t ∨
      ∃ shot, (s.captureImage t).2 = (Assets.store t s.assets shot).2 := by
    unfold captureImage
    split
    · exact .inl rfl
    · exact .inl rfl
    · next shot _ =>
      refine .inr ⟨shot, ?_⟩
      split
      · next h => rw [h]
      · next h => rw [h]
  unfold capture
  split
  · exact .inl rfl
  · exact .inl rfl
  · exact himage
  · exact .inl rfl
  · exact himage

/-- What `capture` answers is a text, or an image at its location under `s.assets`. -/
theorem capture_eq_ok {s : Source} {t t' : FileTree} {reading : Reading} {item : Item}
    (h : s.capture t reading = (.ok (some item), t')) :
    (∃ text, item = .text text) ∨ ∃ f, item = .image (Assets.location s.assets f) f := by
  have himage : s.captureImage t = (.ok (some item), t') →
      ∃ f, item = .image (Assets.location s.assets f) f := by
    intro hi
    unfold captureImage at hi
    split at hi
    · cases hi
    · cases hi
    · split at hi
      · cases hi
      · next path f t₁ hstore =>
        cases hi
        exact ⟨f, by rw [Assets.store_eq_ok hstore]⟩
  unfold capture at h
  split at h
  · cases h
  · cases h
  · exact .inr (himage h)
  · next text _ =>
    cases h
    exact .inl ⟨text, rfl⟩
  · exact .inr (himage h)

theorem capture_keeps {s : Source} {t : FileTree} {p : Path}
    (ha : ∀ f, Apart t (Assets.location s.assets f) p) (reading : Reading) :
    Keeps t (s.capture t reading).2 p := by
  rcases s.capture_files t reading with h | ⟨shot, h⟩
  · rw [h]
    exact .refl t p
  · rw [h]
    exact Assets.store_keeps ha shot

theorem capture_grows (s : Source) (t : FileTree) (reading : Reading) :
    Grows t (s.capture t reading).2 := by
  rcases s.capture_files t reading with h | ⟨shot, h⟩
  · rw [h]
    exact .refl t
  · rw [h]
    exact Assets.store_grows t s.assets shot

theorem capture_writable {s : Source} {t : FileTree} {p : Path} (hp : t.Writable p)
    (hclear : ∀ q ∈ s.assets :: s.assets.parents, Apart t q p) (reading : Reading) :
    (s.capture t reading).2.Writable p := by
  rcases s.capture_files t reading with h | ⟨shot, h⟩
  · rwa [h]
  · rw [h]
    exact Assets.store_writable hp hclear shot

theorem capture_extends {s : Source} {t : FileTree} {p : Path}
    (h : Assets.Harmless t s.assets p) (reading : Reading) :
    Extends t (s.capture t reading).2 p := by
  rcases s.capture_files t reading with hfiles | ⟨shot, hfiles⟩
  · rw [hfiles]
    exact .refl t p
  · rw [hfiles]
    exact Assets.store_extends h shot

end Source
end ClipLedger
