import ClipLedger.Proofs.Assets
import ClipLedger.Proofs.Screenshots

/-
  Storing and capturing, time and again. In any run of calls the folder for images stays sound and
  every call that succeeds leads to the image that it is about (`performAll_sound`). The image that
  a capture adds is the newest screenshot from then on, or the newest one is what it was
  (`latest_added`); so a capture that is repeated has the same outcome. Only where the folder for
  images is missing may it be otherwise: links that lead through it may bring other screenshots to
  light, and double dots in its path may lead to files that were there (`capture_misled`).
-/
namespace ClipLedger

open FileTree (Adds Housed)

namespace Assets

/-! ## The newest screenshot when an image was stored -/

theorem held_of_adds {t t' : FileTree} {shots : Path} {l : Location} {s : Screenshots.Shot}
    (hadds : Adds t t') (h : Screenshots.Held t shots l s) : Screenshots.Held t' shots l s := by
  obtain ⟨node, hnode⟩ := FileTree.mem_names.1 h.1
  obtain ⟨hs, himage, place, content, hfind⟩ := Screenshots.shot?_eq_some.1 h.2
  exact ⟨FileTree.mem_names.2 ⟨node, hadds.nodes _ _ hnode⟩,
    Screenshots.shot?_eq_some.2 ⟨hs, himage, place, content, hadds.find hfind⟩⟩

/-- The name of an image that is not there leads nowhere. -/
theorem find_location_ne {t : FileTree} {shots : Path} {l place : Location} {node : Node}
    {f : Fingerprint} (hshots : t.find shots = .ok (l, .folder))
    (hnew : t.node? (l ++ [(fileName f).bytes]) = none) :
    t.find (location shots f) ≠ .ok (place, node) := by
  intro hfound
  obtain ⟨l', hl', ⟨-, hvacant⟩ | ⟨node, hthere, -⟩⟩ :=
    place_location (FileTree.find_eq_ok.1 hfound)
  · cases hvacant
  · rw [hl'.unique (.inr hshots), hnew] at hthere
    cases hthere

/-- A screenshot that is `Held` once the image of `f` was put at `loc`, and whose path led to a
file before, was held before. -/
theorem held_of_put {t : FileTree} {shots : Path} {l loc place : Location} {f : Fingerprint}
    {bytes content : Bytes} {time : Int} {x : Screenshots.Shot}
    (hshots : t.find shots = .ok (l, .folder))
    (hnew : t.node? (loc ++ [(fileName f).bytes]) = none)
    (hx : Screenshots.Held (t.put (loc ++ [(fileName f).bytes]) (.file bytes time)) shots l x)
    (hfound : t.find (shots.join ⟨x.name⟩) = .ok (place, .file content x.modified)) :
    Screenshots.Held t shots l x := by
  obtain ⟨-, himage, -⟩ := Screenshots.shot?_eq_some.1 hx.2
  refine ⟨FileTree.mem_names.2 ?_, Screenshots.shot?_eq_some.2
    ⟨rfl, himage, place, content, hfound⟩⟩
  obtain ⟨node, hnode⟩ := FileTree.mem_names.1 hx.1
  rw [FileTree.node?_put (List.append_ne_nil_of_right_ne_nil _ (List.cons_ne_nil _ _))] at hnode
  split at hnode
  · next hsame =>
    obtain ⟨rfl, hname⟩ : l = loc ∧ [x.name] = [(fileName f).bytes] := List.append_inj' hsame rfl
    have hlocation : shots.join ⟨x.name⟩ = location shots f := by
      rw [(List.cons.inj hname).1]
      rfl
    rw [hlocation] at hfound
    exact absurd hfound (find_location_ne hshots hnew)
  · exact ⟨node, hnode⟩

/-- When the image of `bytes` is added at `loc`, the newest screenshot is that image, or stays what
it was. -/
theorem latest_added {t : FileTree} {shots p : Path} {bytes : Bytes} {loc : Location}
    {time : Int} (hnew : t.node? (loc ++ [(fileName (.of bytes)).bytes]) = none)
    (hadds : Adds t (t.put (loc ++ [(fileName (.of bytes)).bytes]) (.file bytes time)))
    (h : Screenshots.latest t shots = .ok (some p)) :
    let t' := t.put (loc ++ [(fileName (.of bytes)).bytes]) (.file bytes time)
    ∃ q, Screenshots.latest t' shots = .ok (some q) ∧ (q = p ∨ t'.read q = .ok bytes) := by
  intro t'
  have hne : loc ++ [(fileName (.of bytes)).bytes] ≠ [] :=
    List.append_ne_nil_of_right_ne_nil _ (List.cons_ne_nil _ _)
  obtain ⟨l, s, hshots, rfl, hheld, hmost⟩ := Screenshots.latest_eq_ok h
  have hshots' : t'.find shots = .ok (l, .folder) := hadds.find hshots
  -- what was held is held, so there is a newest one
  have hheld' : Screenshots.Held t' shots l s := held_of_adds hadds hheld
  obtain ⟨q, hq⟩ := Screenshots.latest_of_held hshots' hheld'
  refine ⟨q, hq, ?_⟩
  obtain ⟨l', x, hl', rfl, hx, hmost'⟩ := Screenshots.latest_eq_ok hq
  rw [hshots'] at hl'
  cases hl'
  obtain ⟨-, -, place, content, hfind⟩ := Screenshots.shot?_eq_some.1 hx.2
  by_cases hplace : place = loc ++ [(fileName (.of bytes)).bytes]
  · right
    have harrives := FileTree.place_arrives (by decide) (FileTree.find_eq_ok.1 hfind)
    rcases harrives.found _ _ rfl with hfolder | ⟨hnode, -⟩
    · cases hfolder
    · rw [hplace, FileTree.node?_put hne, if_pos rfl] at hnode
      cases hnode
      exact FileTree.read_eq_ok.2 ⟨_, _, hfind⟩
  · left
    have hold := held_of_put hshots hnew hx (FileTree.find_put_file hne hplace hfind)
    rw [Screenshots.Shot.rank_inj (le_antisymm (hmost x hold) (hmost' s hheld'))]

end Assets

namespace Source

open Assets (Kept Stores Stored)

/-- Where the newest screenshot is stored, `captureImage` answers it and changes nothing. -/
theorem captureImage_of_holds {s : Source} {t : FileTree} {shot : Path} {bytes : Bytes}
    (hlatest : Screenshots.latest t s.screenshots = .ok (some shot))
    (hread : t.read shot = .ok bytes)
    (hholds : t.holds (Assets.location s.assets (.of bytes)) = true) (time : Int) :
    s.captureImage (t.atTime time) =
      (.ok (some (.image (Assets.location s.assets (.of bytes)) (.of bytes))), t.atTime time) := by
  have hthere : (t.atTime time).holds (Assets.location s.assets (.of bytes)) = true := by
    unfold FileTree.holds at hholds ⊢
    rwa [FileTree.find_atTime]
  unfold captureImage Assets.store
  rw [Screenshots.latest_atTime, hlatest]
  dsimp only
  rw [FileTree.read_atTime, hread]
  dsimp only
  rw [if_pos hthere]

/-- `captureImage` answers the same again, if making the folder for images does not change the
newest screenshot (`hlight`). -/
theorem captureImage_again {s : Source} {t t' : FileTree} (hkept : Kept t s.assets)
    (hlight : Screenshots.latest (t.makeFolders s.assets).2 s.screenshots =
      Screenshots.latest t s.screenshots) {item? : Option Item}
    (h : s.captureImage t = (.ok item?, t')) (time : Int) :
    s.captureImage (t'.atTime time) = (.ok item?, t'.atTime time) := by
  unfold captureImage at h
  split at h
  · cases h
  · next hnone =>
    cases h
    unfold captureImage
    rw [Screenshots.latest_atTime, hnone]
  next shot hlatest =>
  have hstores := Assets.store_stores hkept shot
  split at h
  · cases h
  next path f t₁ hstore =>
  cases h
  rw [hstore] at hstores
  generalize hresult : (Except.ok (path, f) : Except Failure (Path × Fingerprint)) = r at hstores
  cases hstores with
  | failed => cases hresult
  | there hread hstored =>
    cases hresult
    exact captureImage_of_holds hlatest hread hstored.holds time
  | @added bytes t₁ loc hread hadds hmade hkept₁ hloc hnew htarget =>
    have hstored := (Stores.added hread hadds hmade hkept₁ hloc hnew htarget).stored.1
    have hadded := FileTree.adds_put_file htarget hnew bytes t₁.clock
    cases hresult
    rw [hmade, hlatest] at hlight
    obtain ⟨q, hq, rfl | hnewest⟩ := Assets.latest_added hnew hadded hlight
    · exact captureImage_of_holds hq ((hadds.trans hadded).read hread) hstored.holds time
    · exact captureImage_of_holds hq hnewest hstored.holds time

end Source

namespace Assets

/-! ## Calls -/

/-- What is asked for: to store an image, or to capture what there is. -/
inductive Call where
  | store (image : Path)
  | capture (screenshots : Path) (reading : Reading)

/-- The answer to a call, with the tree after it. -/
def Call.perform (folder : Path) (t : FileTree) :
    Call → Except Failure (Option Item) × FileTree
  | .store image =>
    match Assets.store t folder image with
    | (.error e, t) => (.error e, t)
    | (.ok (path, f), t) => (.ok (some (.image path f)), t)
  | .capture screenshots reading => Source.capture ⟨screenshots, folder⟩ t reading

/-- The image that a call reads, if it comes to one. -/
def Call.image? (t : FileTree) : Call → Option Path
  | .store image => some image
  | .capture screenshots _ =>
    match Screenshots.latest t screenshots with
    | .ok shot => shot
    | .error _ => none

/-- The tree after calls one after the other, each at its own time. -/
def performAll (folder : Path) : FileTree → List (Int × Call) → FileTree
  | t, [] => t
  | t, (time, c) :: rest => performAll folder (c.perform folder (t.atTime time)).2 rest

/-- What a call may do to a folder that is `Kept`. -/
structure Respects (t : FileTree) (folder : Path) (image? : Option Path)
    (result : Except Failure (Option Item)) (t' : FileTree) : Prop where
  kept : Kept t' folder
  adds : Adds t t'
  stored : ∀ path f, result = .ok (some (.image path f)) → Stored t' folder path f ∧
    ∃ image bytes, image? = some image ∧ t.read image = .ok bytes ∧ Fingerprint.of bytes = f

theorem Respects.quiet {t : FileTree} {folder : Path} (h : Kept t folder) (image? : Option Path)
    {result : Except Failure (Option Item)}
    (hno : ∀ path f, result ≠ .ok (some (.image path f))) :
    Respects t folder image? result t :=
  ⟨h, .refl t, fun path f hresult => absurd hresult (hno path f)⟩

theorem store_respects {t : FileTree} {folder : Path} (h : Kept t folder) (image : Path) :
    Respects t folder (some image) ((Call.store image).perform folder t).1
      ((Call.store image).perform folder t).2 := by
  have hstores := store_stores h image
  rw [Call.perform]
  generalize store t folder image = out at hstores ⊢
  obtain ⟨result, t'⟩ := out
  cases result with
  | error e => exact ⟨hstores.kept h, hstores.adds, fun _ _ h => by cases h⟩
  | ok stored =>
    obtain ⟨path, f⟩ := stored
    obtain ⟨hstored, bytes, hread, hf⟩ := hstores.stored
    refine ⟨hstores.kept h, hstores.adds, fun path' f' hresult => ?_⟩
    cases hresult
    exact ⟨hstored, image, bytes, rfl, hread, hf⟩

theorem capture_respects {t : FileTree} {folder : Path} (h : Kept t folder) (screenshots : Path)
    (reading : Reading) :
    let c := Call.capture screenshots reading
    Respects t folder (c.image? t) (c.perform folder t).1 (c.perform folder t).2 := by
  intro c
  have himage : Respects t folder (c.image? t) (Source.captureImage ⟨screenshots, folder⟩ t).1
      (Source.captureImage ⟨screenshots, folder⟩ t).2 := by
    have hc : c.image? t = match Screenshots.latest t screenshots with
      | .ok shot => shot
      | .error _ => none := rfl
    rw [hc]
    unfold Source.captureImage
    dsimp only
    generalize Screenshots.latest t screenshots = newest
    cases newest with
    | error e => exact .quiet h _ fun _ _ h => by cases h
    | ok shot? =>
      cases shot? with
      | none => exact .quiet h _ fun _ _ h => by cases h
      | some shot =>
        have hstored := store_respects h shot
        rw [Call.perform] at hstored
        exact hstored
  show Respects t folder (c.image? t) (Source.capture ⟨screenshots, folder⟩ t reading).1
    (Source.capture ⟨screenshots, folder⟩ t reading).2
  unfold Source.capture
  cases reading with
  | breakdown => exact .quiet h _ fun _ _ h => by cases h
  | failed reason => exact .quiet h _ fun _ _ h => by cases h
  | empty => exact himage
  | text text =>
    cases text with
    | nil => exact himage
    | cons first rest => exact .quiet h _ fun _ _ h => by cases h

/-- Every call respects the folder, whether it succeeds or fails. -/
theorem perform_respects {t : FileTree} {folder : Path} (h : Kept t folder) (c : Call) :
    Respects t folder (c.image? t) (c.perform folder t).1 (c.perform folder t).2 := by
  cases c with
  | store image => exact store_respects h image
  | capture screenshots reading => exact capture_respects h screenshots reading

theorem Kept.atTime {t : FileTree} {folder : Path} (h : Kept t folder) (time : Int) :
    Kept (t.atTime time) folder := by
  have hleads : ∀ loc, Leads (t.atTime time) folder loc ↔ Leads t folder loc := by
    intro loc
    unfold Leads
    rw [FileTree.find_atTime]
    rfl
  refine ⟨⟨h.housed.working, h.housed.above⟩, fun loc hloc => h.sound loc ((hleads loc).1 hloc), ?_⟩
  intro front rest hsteps
  obtain ⟨loc, hloc⟩ := h.clear front rest hsteps
  exact ⟨loc, (t.walk_atTime time _ _ _ _).trans hloc⟩

theorem performAll_kept {t : FileTree} {folder : Path} (h : Kept t folder)
    (calls : List (Int × Call)) : Kept (performAll folder t calls) folder := by
  induction calls generalizing t with
  | nil => exact h
  | cons call rest ih =>
    obtain ⟨time, c⟩ := call
    exact ih (perform_respects (h.atTime time) c).kept

/-- A capture that succeeded has the same outcome at any later time and changes nothing then, under
`hlight` as in `captureImage_again`. -/
theorem capture_again {t t' : FileTree} {folder screenshots : Path} (h : Kept t folder)
    (hlight : Screenshots.latest (t.makeFolders folder).2 screenshots =
      Screenshots.latest t screenshots) {reading : Reading} {item? : Option Item}
    (hcapture : Source.capture ⟨screenshots, folder⟩ t reading = (.ok item?, t')) (later : Int) :
    Source.capture ⟨screenshots, folder⟩ (t'.atTime later) reading =
      (.ok item?, t'.atTime later) := by
  unfold Source.capture at hcapture ⊢
  cases reading with
  | breakdown => cases hcapture
  | failed reason => cases hcapture
  | empty => exact Source.captureImage_again h hlight hcapture later
  | text text =>
    cases text with
    | nil => exact Source.captureImage_again h hlight hcapture later
    | cons first rest =>
      cases hcapture
      rfl

/-- **The folder for images is addressed by content.** If it is `Kept` before, it stays `Sound` in
every run of calls, at any times, on any images and from any folder of screenshots, whether they
succeed or fail. A further call `c` that succeeds for an image returns a `Stored` path; different
fingerprints have different locations; no node is changed; and a capture that succeeds has the same
outcome again, provided that the folder was there or making it leaves `Screenshots.latest` as it
is. -/
theorem performAll_sound {t : FileTree} {folder : Path} (h : Kept t folder)
    (calls : List (Int × Call)) (time : Int) (c : Call) :
    let t₁ := (performAll folder t calls).atTime time
    let result := (c.perform folder t₁).1
    let t₂ := (c.perform folder t₁).2
    Sound t₁ folder ∧ Sound t₂ folder ∧
    (∀ path f, result = .ok (some (.image path f)) → Stored t₂ folder path f ∧
      ∃ image bytes, c.image? t₁ = some image ∧ t₁.read image = .ok bytes ∧
        Fingerprint.of bytes = f) ∧
    (∀ f g, f ≠ g → location folder f ≠ location folder g) ∧
    (∀ loc node, t₁.node? loc = some node → t₂.node? loc = some node) ∧
    ∀ screenshots reading item? later, c = .capture screenshots reading → result = .ok item? →
      ((∃ loc, Leads t₁ folder loc) ∨
        Screenshots.latest (t₁.makeFolders folder).2 screenshots =
          Screenshots.latest t₁ screenshots) →
      c.perform folder (t₂.atTime later) = (.ok item?, t₂.atTime later) := by
  intro t₁ result t₂
  have hkept : Kept t₁ folder := (performAll_kept h calls).atTime time
  have hc := perform_respects hkept c
  refine ⟨hkept.sound, hc.kept.sound, hc.stored, fun f g hne heq => hne (location_inj heq),
    hc.adds.nodes, ?_⟩
  rintro screenshots reading item? later rfl hresult hcomes
  have hlight : Screenshots.latest (t₁.makeFolders folder).2 screenshots =
      Screenshots.latest t₁ screenshots := by
    rcases hcomes with ⟨loc, hloc⟩ | hlight
    · rw [hloc.makeFolders]
    · exact hlight
  exact capture_again hkept hlight (Prod.ext hresult rfl) later

/-- Screenshots are captured from the folder in which they are stored. -/
theorem performAll_sound_shared_folder :
    let name := Utf8.encode "shots".toList
    let shot := Utf8.encode "x.png".toList
    let image := Utf8.encode "png".toList
    let t : FileTree := ⟨[([name], .folder), ([name, shot], .file image 7)], [], 0⟩
    let folder : Path := .ofString "shots"
    let f := Fingerprint.of image
    let c := Call.capture folder .empty
    let t₁ := (performAll folder t [(3, .store (.ofString "nothing"))]).atTime 9
    let result := (c.perform folder t₁).1
    let t₂ := (c.perform folder t₁).2
    Kept t folder ∧ result = .ok (some (.image (location folder f) f)) ∧
      Stored t₂ folder (location folder f) f ∧
      c.perform folder (t₂.atTime 12) = (result, t₂.atTime 12) := by
  intro name shot image t folder f c t₁ result t₂
  have hfind : t.find folder = .ok ([name], .folder) := by decide +kernel
  have hname : ∀ digits, IsDigits digits → nameOf digits ≠ shot := by
    intro digits hdigits heq
    have htexts := congrArg Utf8.decode? heq
    rw [nameOf, Utf8.decode?_encode, Utf8.decode?_encode] at htexts
    have hlength := congrArg List.length (Option.some.inj htexts)
    rw [List.length_append, hdigits.1] at hlength
    exact absurd hlength (by decide)
  have hsound : Sound t folder := by
    intro loc hloc digits node hdigits hnode
    rw [hloc.unique (.inr hfind)] at hnode
    have hnone : t.node? ([name] ++ [nameOf digits]) = none := by
      simp [t, FileTree.node?, List.lookup_cons, beq_false_of_ne (hname digits hdigits)]
    rw [hnone] at hnode
    cases hnode
  have hkept : Kept t folder :=
    ⟨FileTree.housed_of_nodes rfl (by decide +kernel), hsound, Leads.clear (.inr hfind)⟩
  obtain ⟨-, -, hstored, -, -, hagain⟩ :=
    performAll_sound hkept [(3, .store (.ofString "nothing"))] 9 c
  have hresult : result = .ok (some (.image (location folder f) f)) := by decide +kernel
  refine ⟨hkept, hresult, (hstored _ _ hresult).1, ?_⟩
  rw [hresult]
  exact hagain folder .empty _ 12 rfl hresult (.inl ⟨[name], .inr (by decide +kernel)⟩)

/-- Two folders that are not there. Through the first one leads a link among the screenshots: it
leads nowhere at the first capture, which makes the folder, and the second capture follows it. The
path of the second folder leads up from what is not there: to store an image in it is to write over
a file that was there. -/
theorem capture_misled :
    let name (s : String) := Utf8.encode s.toList
    let older := name "older"
    let newer := name "newer"
    let shots : List (Location × Node) :=
      [([name "shots"], .folder), ([name "shots", name "x.png"], .file older 1000)]
    (let t : FileTree := ⟨shots ++ [([name "other"], .folder),
        ([name "other", name "z.png"], .file newer 2000),
        ([name "shots", name "y.png"], .link (.ofString "../assets/../other/z.png"))], [], 5000⟩
      let s : Source := ⟨.ofString "shots", .ofString "assets"⟩
      let first := (s.capture t .empty).1
      let t₁ := (s.capture t .empty).2
      let again := (s.capture t₁ .empty).1
      let t₂ := (s.capture t₁ .empty).2
      Housed t ∧ t.find s.assets = .error .notFound ∧ Sound t s.assets ∧
        first = .ok (some (.image (location s.assets (.of older)) (.of older))) ∧
        again = .ok (some (.image (location s.assets (.of newer)) (.of newer))) ∧
        first ≠ again ∧ t₁.holds (location s.assets (.of newer)) = false ∧
        t₂.holds (location s.assets (.of newer)) = true) ∧
    (let image := (fileName (.of older)).bytes
      let t : FileTree := ⟨shots ++ [([image], .file newer 2000)], [], 5000⟩
      let s : Source := ⟨.ofString "shots", .ofString "missing/.."⟩
      Housed t ∧ t.find s.assets = .error .notFound ∧ Sound t s.assets ∧
        (s.capture t .empty).1 = .ok (some (.image (location s.assets (.of older)) (.of older))) ∧
        t.node? [image] = some (.file newer 2000) ∧
        (s.capture t .empty).2.node? [image] = some (.file older 5000)) := by
  intro name older newer shots
  have hsound : ∀ {t : FileTree} {folder : Path}, folder.bytes ≠ [] →
      t.find folder = .error .notFound → Sound t folder := by
    intro t folder hne hmissing loc hloc
    rcases hloc with ⟨hempty, -⟩ | hfind
    · exact absurd hempty hne
    · rw [hmissing] at hfind
      cases hfind
  refine ⟨?_, ?_⟩
  · intro t s first t₁ again t₂
    have hmissing : t.find s.assets = .error .notFound := by decide +kernel
    refine ⟨FileTree.housed_of_nodes rfl (by decide +kernel), hmissing,
      hsound (by decide +kernel) hmissing, ?_, ?_, ?_, ?_, ?_⟩
    all_goals decide +kernel
  · intro image t s
    have hmissing : t.find s.assets = .error .notFound := by decide +kernel
    refine ⟨FileTree.housed_of_nodes rfl (by decide +kernel), hmissing,
      hsound (by decide +kernel) hmissing, ?_, ?_, ?_⟩
    all_goals decide +kernel

end Assets
end ClipLedger
