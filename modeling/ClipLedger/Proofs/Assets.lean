import ClipLedger.Proofs.Capture
import ClipLedger.Proofs.Files.Added

/-
  The folder for images is addressed by content. It is sound where whatever has the name of a
  fingerprint is a file whose bytes have that fingerprint (`Sound`). The way to an image comes to
  the folder first (`place_location`), so in a sound folder an image that is there is the right one
  (`Sound.stored`), and one that is not is written under a free name (`Sound.target`). Storing an
  image therefore changes nothing that was there (`Stores.adds`) and leaves the folder sound
  (`Stores.kept`), whether it succeeds or fails.
-/
namespace ClipLedger

open FileTree (Adds Grows Housed)

/-! ## Names -/

namespace Hex

/-- The sixteen characters of `digit`. -/
def digits : Text := "0123456789abcdef".toList

theorem digit_mem : ∀ n < 16, digit n ∈ digits := by decide

theorem bytes?_ofBytes (bytes : Bytes) : bytes? (ofBytes bytes) = some bytes := by
  induction bytes with
  | nil => rfl
  | cons b bytes ih =>
    have hlt := b.toNat_lt
    have hbyte : UInt8.ofNat (b.toNat / 16 * 16 + b.toNat % 16) = b := by
      rw [Nat.div_add_mod', UInt8.ofNat_toNat]
    have hdigits : ofBytes (b :: bytes) =
        digit (b.toNat / 16) :: digit (b.toNat % 16) :: ofBytes bytes := rfl
    rw [hdigits, bytes?, value?_digit _ (by omega), value?_digit _ (by omega), ih]
    exact congrArg (fun b => some (b :: bytes)) hbyte

theorem mem_digits {bytes : Bytes} {c : Char} (h : c ∈ ofBytes bytes) : c ∈ digits := by
  obtain ⟨b, -, hc⟩ := List.mem_flatMap.1 h
  have hlt := b.toNat_lt
  rcases List.mem_cons.1 hc with rfl | hc
  · exact digit_mem _ (by omega)
  · rw [List.mem_singleton.1 hc]
    exact digit_mem _ (by omega)

end Hex

/-- No two fingerprints have the same digits. -/
theorem Fingerprint.hex_inj {f g : Fingerprint} (h : f.hex = g.hex) : f = g := by
  have hbytes := congrArg Hex.bytes? h
  rw [hex, hex, Hex.bytes?_ofBytes, Hex.bytes?_ofBytes] at hbytes
  cases f
  cases g
  cases hbytes
  rfl

namespace Assets

/-- `digits` spells a fingerprint: 32 characters of `Hex.digits`. -/
def IsDigits (digits : Text) : Prop := digits.length = 32 ∧ ∀ c ∈ digits, c ∈ Hex.digits

/-- The name of the file for the fingerprint spelled by `digits`. -/
def nameOf (digits : Text) : Bytes := Utf8.encode (digits ++ ".png".toList)

theorem isDigits_hex (bytes : Bytes) : IsDigits (Fingerprint.of bytes).hex :=
  ⟨Fingerprint.length_hex_of bytes, fun _ => Hex.mem_digits⟩

theorem nameOf_inj {digits digits' : Text} (h : nameOf digits = nameOf digits') :
    digits = digits' := by
  have htexts := congrArg Utf8.decode? h
  rw [nameOf, nameOf, Utf8.decode?_encode, Utf8.decode?_encode] at htexts
  exact List.append_cancel_right (Option.some.inj htexts)

/-! ## Where images are stored -/

/-- With an empty folder path, which stands for the working folder, the location is the name
alone. -/
theorem location_of_empty {folder : Path} (hempty : folder.bytes = []) (f : Fingerprint) :
    location folder f = fileName f := by
  unfold location Path.join
  rw [isAbsolute_fileName, hempty]
  simp

theorem location_inj {folder : Path} {f g : Fingerprint}
    (h : location folder f = location folder g) : f = g := by
  have hname : (fileName f).bytes = (fileName g).bytes := by
    by_cases hempty : folder.bytes = []
    · rw [location_of_empty hempty, location_of_empty hempty] at h
      rw [h]
    · have hsteps := congrArg Path.steps h
      rw [steps_location hempty, steps_location hempty] at hsteps
      exact (List.cons.inj (List.append_cancel_left hsteps)).1
  exact Fingerprint.hex_inj (nameOf_inj hname)

theorem origin_location (t : FileTree) (folder : Path) (f : Fingerprint) :
    t.origin (location folder f) = t.origin folder := by
  unfold FileTree.origin
  by_cases hempty : folder.bytes = []
  · have habsolute : folder.isAbsolute = false := by
      rw [Path.isAbsolute, hempty]
      rfl
    rw [location_of_empty hempty, isAbsolute_fileName, habsolute]
  · rw [isAbsolute_location hempty]

theorem steps_image (folder : Path) (f : Fingerprint) :
    (location folder f).steps = folder.withoutSlashes.steps ++ [(fileName f).bytes] := by
  by_cases hempty : folder.bytes = []
  · have hslash := slash_not_mem_fileName f
    have hend : (fileName f).endsInSlash = false := by
      rw [Path.endsInSlash, beq_eq_false_iff_ne]
      exact fun h => hslash (List.mem_of_getLast? h)
    rw [location_of_empty hempty, Path.steps_withoutSlashes, hempty, Path.steps, hend,
      List.splitOn_eq_singleton hslash]
    simp [(fileName_plain f).1]
  · exact steps_location hempty f

theorem bytes_prefix_location {folder : Path} (hne : folder.bytes ≠ []) (f : Fingerprint) :
    folder.bytes <+: (location folder f).bytes := by
  rcases location_bytes hne f with ⟨hbytes, -⟩ | ⟨hbytes, -⟩
  · rw [hbytes]
    exact List.prefix_append _ _
  · rw [hbytes]
    exact List.prefix_append _ _

/-! ## Where the folder is -/

/-- `folder` leads to the folder at `loc`. An empty path leads to the working folder. -/
def Leads (t : FileTree) (folder : Path) (loc : Location) : Prop :=
  folder.bytes = [] ∧ loc = t.workingFolder ∨ t.find folder = .ok (loc, .folder)

/-- `Leads`, stated as a walk from the origin of the path. -/
theorem leads_iff {t : FileTree} {folder : Path} {loc : Location} :
    Leads t folder loc ↔ (folder.bytes = [] ∨ folder.fault? = none) ∧
      t.walk .follow FileTree.linkLimit (t.origin folder) folder.withoutSlashes.steps =
        .ok (.found loc .folder) := by
  unfold Leads
  rw [FileTree.find_folder_iff]
  by_cases hempty : folder.bytes = []
  · have hfault : folder.fault? = some .notFound := by
      unfold Path.fault?
      rw [hempty]
      rfl
    have hwalk : t.walk .follow FileTree.linkLimit (t.origin folder) folder.withoutSlashes.steps =
        .ok (.found t.workingFolder .folder) := by
      have horigin : t.origin folder = t.workingFolder := by
        unfold FileTree.origin Path.isAbsolute
        rw [hempty]
        rfl
      rw [horigin, Path.steps_withoutSlashes, hempty]
      rfl
    rw [hwalk]
    simp [hempty, hfault, eq_comm]
  · simp [hempty]

theorem Leads.unique {t : FileTree} {folder : Path} {loc loc' : Location}
    (h : Leads t folder loc) (h' : Leads t folder loc') : loc = loc' := by
  have hwalk := (leads_iff.1 h).2
  rw [(leads_iff.1 h').2] at hwalk
  cases hwalk
  rfl

theorem Leads.adds {t t' : FileTree} (hadds : Adds t t') {folder : Path} {loc : Location}
    (h : Leads t folder loc) : Leads t' folder loc := by
  rcases h with ⟨hempty, rfl⟩ | hfind
  · exact .inl ⟨hempty, hadds.grows.links.folder.symm⟩
  · exact .inr (hadds.find hfind)

/-- A path that leads to a folder is `Clear`: every step up starts at a folder that is there. -/
theorem Leads.clear {t : FileTree} {folder : Path} {loc : Location} (h : Leads t folder loc) :
    t.Clear folder := by
  intro front rest hsteps
  have hwalk := (leads_iff.1 h).2
  rw [hsteps] at hwalk
  obtain ⟨l, -, hl, -⟩ := FileTree.walk_append _ _ _ (List.cons_ne_nil _ _) hwalk
  exact ⟨l, hl⟩

theorem Leads.makeFolders {t : FileTree} {folder : Path} {loc : Location}
    (h : Leads t folder loc) : t.makeFolders folder = (.ok (), t) := by
  rcases h with ⟨hempty, -⟩ | hfind
  · unfold FileTree.makeFolders FileTree.makeAll
    rw [if_pos hempty]
  · exact FileTree.makeFolders_of_isFolder (FileTree.isFolder_iff.2 ⟨loc, hfind⟩)

/-- The walk to an image goes through the place of the folder, and ends at what stands there under
its name. -/
theorem place_location {t : FileTree} {folder : Path} {f : Fingerprint} {place : Place}
    (h : t.place .follow (location folder f) = .ok place) :
    ∃ loc, Leads t folder loc ∧
      (t.node? (loc ++ [(fileName f).bytes]) = none ∧
          place = .vacant (loc ++ [(fileName f).bytes]) ∨
        ∃ node, t.node? (loc ++ [(fileName f).bytes]) = some node ∧
          ((∀ target, node ≠ .link target) →
            place = .found (loc ++ [(fileName f).bytes]) node)) := by
  unfold FileTree.place at h
  split at h
  · cases h
  next hfault =>
  rw [origin_location, steps_image] at h
  obtain ⟨loc, n, hfolder, hlast⟩ := FileTree.walk_append _ _ _ (List.cons_ne_nil _ _) h
  have hstart : folder.bytes = [] ∨ folder.fault? = none := by
    by_cases hempty : folder.bytes = []
    · exact .inl hempty
    · exact .inr (Path.fault?_prefix (bytes_prefix_location hempty f) hempty hfault)
  refine ⟨loc, leads_iff.2 ⟨hstart, hfolder⟩, ?_⟩
  have hgoes : ∃ d, FileTree.Goes t .follow d loc [(fileName f).bytes] place := by
    cases n with
    | zero => exact ⟨_, FileTree.walkFrom_eq_ok.1 hlast⟩
    | succ n => exact ⟨_, FileTree.walkFrom_eq_ok.1 hlast⟩
  obtain ⟨hne, hdot, hdots⟩ := fileName_plain f
  obtain ⟨d, hgoes⟩ := hgoes
  generalize (fileName f).bytes = name at hgoes hne hdot hdots ⊢
  cases hgoes with
  | stay h _ => exact absurd h (not_or.2 ⟨hne, hdot⟩)
  | up _ => exact absurd rfl hdots
  | vacant _ hnode => exact .inl ⟨hnode, rfl⟩
  | enter _ hnode hnext =>
    cases hnext
    exact .inr ⟨_, hnode, fun _ => rfl⟩
  | file _ hnode => exact .inr ⟨_, hnode, fun _ => rfl⟩
  | link _ _ hlook => cases hlook
  | follow _ hnode _ _ => exact .inr ⟨_, hnode, fun h => absurd rfl (h _)⟩

/-! ## Sound folders -/

/-- Under `folder`, every node whose name is a fingerprint is a file, and its bytes have that
fingerprint. -/
def Sound (t : FileTree) (folder : Path) : Prop :=
  ∀ loc, Leads t folder loc → ∀ digits node, IsDigits digits →
    t.node? (loc ++ [nameOf digits]) = some node →
    ∃ bytes modified, node = .file bytes modified ∧ (Fingerprint.of bytes).hex = digits

/-- `path` is the location of `f` in `folder`, and leads to a file whose bytes have the fingerprint
`f`. -/
def Stored (t : FileTree) (folder path : Path) (f : Fingerprint) : Prop :=
  ∃ loc bytes modified, Leads t folder loc ∧ path = location folder f ∧
    t.find path = .ok (loc ++ [(fileName f).bytes], .file bytes modified) ∧
    Fingerprint.of bytes = f

theorem Stored.holds {t : FileTree} {folder path : Path} {f : Fingerprint}
    (h : Stored t folder path f) : t.holds path = true := by
  obtain ⟨loc, bytes, modified, -, -, hfind, -⟩ := h
  unfold FileTree.holds
  rw [hfind]

/-- In a sound folder, what is at the location of the fingerprint of `bytes` is an image with that
fingerprint. -/
theorem Sound.stored {t : FileTree} {folder : Path} (h : Sound t folder) (bytes : Bytes)
    (hholds : t.holds (location folder (.of bytes)) = true) :
    Stored t folder (location folder (.of bytes)) (.of bytes) := by
  obtain ⟨place, hfind⟩ : ∃ place, t.find (location folder (.of bytes)) = .ok place := by
    unfold FileTree.holds at hholds
    split at hholds
    · next hfind => exact ⟨_, hfind⟩
    · cases hholds
  have hplace := FileTree.find_eq_ok.1 hfind
  obtain ⟨loc, hloc, ⟨-, hvacant⟩ | ⟨node, hnode, hfound⟩⟩ := place_location hplace
  · cases hvacant
  obtain ⟨bytes', modified, rfl, hhex⟩ := h loc hloc _ node (isDigits_hex bytes) hnode
  rw [hfound (fun _ h => by cases h)] at hplace
  exact ⟨loc, bytes', modified, hloc, rfl, FileTree.find_eq_ok.2 hplace,
    Fingerprint.hex_inj hhex⟩

/-- Where no image is at the location of `.of bytes` and it can be written, the place of its name is
vacant in the folder. -/
theorem Sound.target {t : FileTree} {folder : Path} (h : Sound t folder) (bytes : Bytes)
    (hnot : t.holds (location folder (.of bytes)) = false) {l : Location} {content : Bytes}
    (htarget : t.target (location folder (.of bytes)) = .ok (l, content)) :
    ∃ loc, Leads t folder loc ∧ l = loc ++ [(fileName (.of bytes)).bytes] := by
  unfold FileTree.target at htarget
  split at htarget
  · cases htarget
  · next hplace =>
    cases htarget
    obtain ⟨loc, hloc, ⟨-, hvacant⟩ | ⟨node, hnode, hfound⟩⟩ :=
      place_location (FileTree.place_follow hplace)
    · cases hvacant
      exact ⟨loc, hloc, rfl⟩
    · obtain ⟨bytes', modified, rfl, -⟩ := h loc hloc _ node (isDigits_hex bytes) hnode
      cases hfound (fun _ h => by cases h)
  · next hplace =>
    have hfind := FileTree.find_eq_ok.2 (FileTree.place_follow hplace)
    unfold FileTree.holds at hnot
    rw [hfind] at hnot
    cases hnot
  · cases htarget

/-- The folder is `Sound`, and its path is `Clear`. -/
structure Kept (t : FileTree) (folder : Path) : Prop where
  housed : Housed t
  sound : Sound t folder
  clear : t.Clear folder

/-- `makeFolders` keeps it so, whether or not it succeeds, and no image is there by it. -/
theorem Kept.makeFolders {t t₁ : FileTree} {folder : Path} (h : Kept t folder)
    {result : Except FileError Unit} (hmake : t.makeFolders folder = (result, t₁)) :
    Kept t₁ folder ∧ (result = .ok () → ∀ f, t.holds (location folder f) = false →
      t₁.holds (location folder f) = false) := by
  have hgrows : Grows t t₁ := snd_of_eq hmake (FileTree.makeFolders_grows t folder)
  have hkept : Sound t₁ folder → Kept t₁ folder :=
    fun hsound => ⟨hgrows.housed h.housed, hsound, h.clear.of_grows hgrows⟩
  cases result with
  | error e =>
    have hnone := FileTree.makeFolders_eq_error hmake
    refine ⟨hkept fun loc hloc => ?_, fun h => by cases h⟩
    rcases hloc with ⟨hempty, -⟩ | hfind
    · unfold FileTree.makeFolders FileTree.makeAll at hmake
      rw [if_pos hempty] at hmake
      cases hmake
    · rw [FileTree.isFolder_iff.2 ⟨loc, hfind⟩] at hnone
      cases hnone
  | ok _ =>
    refine ⟨?_, fun _ f => holds_location_of_makeFolders h.housed h.clear hmake⟩
    rcases FileTree.makeFolders_cases h.housed h.clear hmake with
      ⟨rfl, -⟩ | ⟨-, loc, hloc, hbare⟩
    · exact h
    · refine hkept fun loc' hloc' digits node _ hnode => ?_
      rw [hloc'.unique (.inr hloc), hbare] at hnode
      cases hnode

/-! ## Storing -/

/-- What comes of storing `image`: an error, for which folders may have been made; an image that is
there already; or one file that is added. -/
inductive Stores (t : FileTree) (folder image : Path) :
    Except Failure (Path × Fingerprint) → FileTree → Prop
  | failed (e : Failure) {t' : FileTree} (adds : Adds t t') (kept : Kept t' folder) :
      Stores t folder image (.error e) t'
  | there {bytes : Bytes} (read : t.read image = .ok bytes)
      (stored : Stored t folder (location folder (.of bytes)) (.of bytes)) :
      Stores t folder image (.ok (location folder (.of bytes), .of bytes)) t
  | added {bytes : Bytes} {t₁ : FileTree} {loc : Location} (read : t.read image = .ok bytes)
      (adds : Adds t t₁) (made : t.makeFolders folder = (.ok (), t₁)) (kept : Kept t₁ folder)
      (leads : Leads t₁ folder loc) (new : t₁.node? (loc ++ [(fileName (.of bytes)).bytes]) = none)
      (target : t₁.target (location folder (.of bytes)) =
        .ok (loc ++ [(fileName (.of bytes)).bytes], [])) :
      Stores t folder image (.ok (location folder (.of bytes), .of bytes))
        (t₁.put (loc ++ [(fileName (.of bytes)).bytes]) (.file bytes t₁.clock))

theorem store_stores {t : FileTree} {folder : Path} (h : Kept t folder) (image : Path) :
    Stores t folder image (store t folder image).1 (store t folder image).2 := by
  unfold store
  split
  · exact .failed _ (.refl t) h
  next bytes hread =>
  dsimp only
  split
  · next hholds => exact .there hread (h.sound.stored bytes hholds)
  next hnot =>
  rw [Bool.not_eq_true] at hnot
  have hmade := FileTree.makeFolders_adds t folder
  split
  · next t₁ hmake =>
    exact .failed _ (snd_of_eq hmake hmade) (h.makeFolders hmake).1
  next t₁ hmake =>
  have hadds : Adds t t₁ := snd_of_eq hmake hmade
  obtain ⟨hkept, hstill⟩ := h.makeFolders hmake
  unfold FileTree.write FileTree.update
  cases htarget : t₁.target (location folder (.of bytes)) with
  | error e => exact .failed _ hadds hkept
  | ok place =>
    obtain ⟨l, content⟩ := place
    have hnone := FileTree.target_of_not_holds (hstill rfl _ hnot) htarget
    obtain ⟨loc, hloc, rfl⟩ := hkept.sound.target bytes (hstill rfl _ hnot) htarget
    have hempty : content = [] := by
      rcases FileTree.target_cases htarget with ⟨-, hempty⟩ | ⟨modified, hfile⟩
      · exact hempty
      · rw [hnone] at hfile
        cases hfile
    subst hempty
    exact .added hread hadds hmake hkept hloc hnone htarget

variable {t t' : FileTree} {folder image : Path} {result : Except Failure (Path × Fingerprint)}

/-- Whatever comes of it, `Adds` holds: nothing that was there is changed. -/
theorem Stores.adds (h : Stores t folder image result t') : Adds t t' := by
  cases h with
  | failed _ hadds _ => exact hadds
  | there => exact .refl t
  | added _ hadds _ _ _ hnew htarget => exact hadds.trans (FileTree.adds_put_file htarget hnew _ _)

/-- Whatever comes of it, the folder stays `Kept`. -/
theorem Stores.kept (hkept : Kept t folder) (h : Stores t folder image result t') :
    Kept t' folder := by
  cases h with
  | failed _ _ hkept' => exact hkept'
  | there => exact hkept
  | @added bytes t₁ loc _ _ _ hkept₁ hloc hnew htarget =>
    have hadded := FileTree.adds_put_file htarget hnew bytes t₁.clock
    have hne : _ ≠ [] := (FileTree.target_spec htarget).2.2.1
    refine ⟨hadded.grows.housed hkept₁.housed, ?_, hkept₁.clear.of_grows hadded.grows⟩
    intro loc' hloc' digits node hdigits hnode
    rw [hloc'.unique (hloc.adds hadded), FileTree.node?_put hne] at hnode
    split at hnode
    · next hsame =>
      cases hnode
      exact ⟨bytes, t₁.clock, rfl,
        (nameOf_inj (List.cons.inj (List.append_cancel_left hsame)).1).symm⟩
    · exact hkept₁.sound loc hloc digits node hdigits hnode

/-- The returned path leads to an image in the folder, whose fingerprint is that of the bytes read
at `image`. -/
theorem Stores.stored {path : Path} {f : Fingerprint}
    (h : Stores t folder image (.ok (path, f)) t') :
    Stored t' folder path f ∧ ∃ bytes, t.read image = .ok bytes ∧ Fingerprint.of bytes = f := by
  generalize hresult : (Except.ok (path, f) : Except Failure (Path × Fingerprint)) = r at h
  cases h with
  | failed => cases hresult
  | there hread hstored =>
    cases hresult
    exact ⟨hstored, _, hread, rfl⟩
  | @added bytes t₁ loc hread _ _ _ hloc hnew htarget =>
    cases hresult
    have hadded := FileTree.adds_put_file htarget hnew bytes t₁.clock
    exact ⟨⟨loc, bytes, t₁.clock, hloc.adds hadded, rfl,
      FileTree.find_of_target htarget bytes t₁.clock, rfl⟩, bytes, hread, rfl⟩

end Assets
end ClipLedger
