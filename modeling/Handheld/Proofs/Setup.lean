import Handheld.Arguments
import Handheld.Console.Load
import Handheld.Proofs.Commands
import Handheld.Proofs.Rendering

/-!
# Setting up a console

The arguments and the file they name come to settings, or to the first thing that is wrong with
them, and the settings and the images they name to a console. The rules that say what they come
to stand here beside the functions. A file is held to what a viewport can show, so nothing is
clamped later: a console that was set up shows frames of exactly the size that was asked for,
whatever is done to it. Images that can be read are not quite enough to have one, since there
cannot be room for a trace of any length.
-/

namespace Handheld

-- ---------------------------------------------------------------------------
-- Viewports
-- ---------------------------------------------------------------------------

namespace Viewport

def Fits (v : Viewport) : Prop := (1 ≤ v.width ∧ v.width ≤ 256) ∧ 1 ≤ v.height ∧ v.height ≤ 256

theorem axisValid_iff (n : Nat) : axisValid n = true ↔ 1 ≤ n ∧ n ≤ 256 := by
  rw [axisValid, Bool.and_eq_true, decide_eq_true_iff, decide_eq_true_iff, side]

theorem valid_iff (v : Viewport) : v.valid = true ↔ v.Fits := by
  rw [valid, Bool.and_eq_true, axisValid_iff, axisValid_iff, Fits]

theorem clampAxis_eq_self_iff (n : Nat) : clampAxis n = n ↔ 1 ≤ n ∧ n ≤ 256 := by
  unfold clampAxis side
  omega

/-- The check of a file and the clamping of a console are about the same viewports. -/
theorem clamped_eq_self_iff (v : Viewport) : v.clamped = v ↔ v.Fits := by
  obtain ⟨width, height⟩ := v
  rw [clamped, Viewport.mk.injEq, clampAxis_eq_self_iff, clampAxis_eq_self_iff]
  exact Iff.rfl

end Viewport

-- ---------------------------------------------------------------------------
-- Settings
-- ---------------------------------------------------------------------------

theorem fromUTF8?_toUTF8 (text : String) : String.fromUTF8? text.toUTF8 = some text :=
  dif_pos text.isValidUTF8

theorem eq_toUTF8_of_fromUTF8? {content : ByteArray} {text : String}
    (h : String.fromUTF8? content = some text) : content = text.toUTF8 := by
  unfold String.fromUTF8? at h
  split at h
  · exact congrArg String.toUTF8 (Option.some.inj h)
  · cases h

namespace Settings

/-- What a settings file comes to: the first thing that is wrong with it, or the settings in it. -/
inductive FileGives (parse : Parse) (disk : Disk) (path : String) :
    Except SetupError Settings → Prop
  | unreadable {reason} : disk path = .error reason →
      FileGives parse disk path (.error (.unreadable reason))
  | notText {content} : disk path = .ok content → (∀ text : String, content ≠ text.toUTF8) →
      FileGives parse disk path (.error .notText)
  | malformed {text problem} : disk path = .ok text.toUTF8 → parse text = .error problem →
      FileGives parse disk path (.error (.malformed path problem))
  | viewport {text s} : disk path = .ok text.toUTF8 → parse text = .ok s → ¬ s.viewport.Fits →
      FileGives parse disk path (.error (.viewport path s.viewport))
  | settings {text s} : disk path = .ok text.toUTF8 → parse text = .ok s → s.viewport.Fits →
      FileGives parse disk path (.ok s)

inductive Below (parse : Parse) (disk : Disk) (a : Arguments) : Except SetupError Settings → Prop
  | defaults : a.settings = none → Below parse disk a (.ok {})
  | file {path r} : a.settings = some path → FileGives parse disk path r → Below parse disk a r

def Replaced {α : Type} (given below result : Option α) : Prop :=
  (∀ x, given = some x → result = some x) ∧ (given = none → result = below)

/-- The settings `s` are those below, with the arguments laid over them. -/
structure Overlaid (below : Settings) (a : Arguments) (s : Settings) : Prop where
  cartridge : Replaced a.cartridge below.cartridge s.cartridge
  boot : Replaced a.boot below.boot s.boot
  maxSteps : Replaced a.maxSteps below.maxSteps s.maxSteps
  debugging : s.debugging = true ↔ a.debugging = true ∨ below.debugging = true
  headless : s.headless = true ↔ a.headless = true ∨ below.headless = true
  traceCapacity : s.traceCapacity = below.traceCapacity
  pause : s.pause = below.pause
  viewport : s.viewport = below.viewport

/-- What arguments come to. A cartridge is asked for only when nothing else is wrong. -/
inductive AskedFor (parse : Parse) (disk : Disk) (a : Arguments) :
    Except SetupError Settings → Prop
  | refused {e} : Below parse disk a (.error e) → AskedFor parse disk a (.error e)
  | noCartridge {below} : Below parse disk a (.ok below) → a.cartridge = none →
      below.cartridge = none → AskedFor parse disk a (.error .noCartridge)
  | settings {below s} : Below parse disk a (.ok below) →
      a.cartridge ≠ none ∨ below.cartridge ≠ none → Overlaid below a s →
      AskedFor parse disk a (.ok s)

variable {parse : Parse} {disk : Disk} {path : String} {a : Arguments} {s below : Settings}
  {r : Except SetupError Settings}

theorem load_of_unreadable {reason : ReadError} (hread : disk path = .error reason) :
    load parse disk path = .error (.unreadable reason) := by
  rw [load, hread]

theorem load_of_not_text {content : ByteArray} (hread : disk path = .ok content)
    (hnone : String.fromUTF8? content = none) : load parse disk path = .error .notText := by
  simp only [load, hread, ofBytes, hnone]

theorem load_of_text {text : String} (hread : disk path = .ok text.toUTF8) :
    load parse disk path = match parse text with
      | .error problem => .error (.malformed path problem)
      | .ok s => if s.viewport.valid then .ok s else .error (.viewport path s.viewport) := by
  simp only [load, hread, ofBytes, fromUTF8?_toUTF8]
  cases parse text <;> rfl

theorem fileGives_load (parse : Parse) (disk : Disk) (path : String) :
    FileGives parse disk path (load parse disk path) := by
  cases hread : disk path with
  | error reason => exact load_of_unreadable hread ▸ .unreadable hread
  | ok content =>
    cases htext : String.fromUTF8? content with
    | none =>
      refine load_of_not_text hread htext ▸ .notText hread fun text h => ?_
      rw [h, fromUTF8?_toUTF8] at htext
      cases htext
    | some text =>
      obtain rfl := eq_toUTF8_of_fromUTF8? htext
      rw [load_of_text hread]
      cases hs : parse text with
      | error problem => exact .malformed hread hs
      | ok s =>
        by_cases hvalid : s.viewport.valid = true
        · simpa [hvalid] using FileGives.settings hread hs ((Viewport.valid_iff _).mp hvalid)
        · have hfits : ¬ s.viewport.Fits := mt (Viewport.valid_iff _).mpr hvalid
          simpa [hvalid] using FileGives.viewport hread hs hfits

theorem FileGives.load_eq (h : FileGives parse disk path r) : load parse disk path = r := by
  cases h with
  | unreadable hread => exact load_of_unreadable hread
  | notText hread hnone =>
    refine load_of_not_text hread (Option.eq_none_iff_forall_ne_some.mpr fun text h => ?_)
    exact hnone text (eq_toUTF8_of_fromUTF8? h)
  | malformed hread hs => rw [load_of_text hread, hs]
  | viewport hread hs hfits =>
    rw [load_of_text hread, hs]
    exact if_neg (mt (Viewport.valid_iff _).mp hfits)
  | settings hread hs hfits =>
    rw [load_of_text hread, hs]
    exact if_pos ((Viewport.valid_iff _).mpr hfits)

theorem below_base (parse : Parse) (disk : Disk) (a : Arguments) :
    Below parse disk a (base parse disk a) := by
  unfold base
  split
  · next path hpath => exact .file hpath (fileGives_load parse disk path)
  · next hnone => exact .defaults hnone

theorem Below.base_eq (h : Below parse disk a r) : base parse disk a = r := by
  cases h with
  | defaults hnone => simp [base, hnone]
  | file hpath hfile => simp [base, hpath, hfile.load_eq]

theorem Below.fits (h : Below parse disk a (.ok s)) : s.viewport.Fits := by
  cases h with
  | defaults => exact ⟨by decide, by decide⟩
  | file hpath hfile =>
    cases hfile with
    | settings _ _ hfits => exact hfits

theorem replaced_iff {α : Type} {given below result : Option α} :
    Replaced given below result ↔ result = (given <|> below) := by
  cases given <;> simp [Replaced]

theorem overlaid_iff : Overlaid below a s ↔ s = below.withArguments a := by
  constructor
  · intro h
    obtain ⟨cartridge, boot, debugging, traceCapacity, pause, viewport, maxSteps, headless⟩ := s
    have hdebugging : debugging = (below.debugging || a.debugging) := by
      rw [Bool.eq_iff_iff, h.debugging, Bool.or_eq_true, or_comm]
    have hheadless : headless = (below.headless || a.headless) := by
      rw [Bool.eq_iff_iff, h.headless, Bool.or_eq_true, or_comm]
    simp only [withArguments, Settings.mk.injEq]
    exact ⟨replaced_iff.mp h.cartridge, replaced_iff.mp h.boot, hdebugging, h.traceCapacity,
      h.pause, h.viewport, replaced_iff.mp h.maxSteps, hheadless⟩
  · rintro rfl
    exact {
      cartridge := replaced_iff.mpr rfl
      boot := replaced_iff.mpr rfl
      maxSteps := replaced_iff.mpr rfl
      debugging := by rw [withArguments, Bool.or_eq_true, or_comm]
      headless := by rw [withArguments, Bool.or_eq_true, or_comm]
      traceCapacity := rfl
      pause := rfl
      viewport := rfl }

theorem exists_orElse {α : Type} {x y : Option α} (h : x ≠ none ∨ y ≠ none) :
    ∃ v, (x <|> y) = some v := by
  cases x with
  | some v => exact ⟨v, rfl⟩
  | none => exact Option.ne_none_iff_exists'.mp (h.resolve_left (· rfl))

theorem ofArguments_of_error {e : SetupError} (h : base parse disk a = .error e) :
    ofArguments parse disk a = .error e := by
  rw [ofArguments, h]
  rfl

theorem ofArguments_of_ok (h : base parse disk a = .ok below) :
    ofArguments parse disk a = match a.cartridge <|> below.cartridge with
      | some _ => .ok (below.withArguments a)
      | none => .error .noCartridge := by
  have hcartridge : (below.withArguments a).cartridge = (a.cartridge <|> below.cartridge) := rfl
  rw [ofArguments, h]
  simp only [bind, Except.bind, requireCartridge, hcartridge]
  cases a.cartridge <|> below.cartridge <;> rfl

theorem askedFor_ofArguments (parse : Parse) (disk : Disk) (a : Arguments) :
    AskedFor parse disk a (ofArguments parse disk a) := by
  have hbelow := below_base parse disk a
  cases hbase : base parse disk a with
  | error e =>
    rw [ofArguments_of_error hbase]
    exact .refused (hbase ▸ hbelow)
  | ok below =>
    rw [ofArguments_of_ok hbase]
    rw [hbase] at hbelow
    have hover : Overlaid below a (below.withArguments a) := overlaid_iff.mpr rfl
    cases hgiven : a.cartridge with
    | some path => exact .settings hbelow (.inl (by simp [hgiven])) hover
    | none =>
      cases hfile : below.cartridge with
      | some path => exact .settings hbelow (.inr (by simp [hfile])) hover
      | none => exact .noCartridge hbelow hgiven hfile

theorem AskedFor.ofArguments_eq (h : AskedFor parse disk a r) : ofArguments parse disk a = r := by
  cases h with
  | refused hbelow => exact ofArguments_of_error hbelow.base_eq
  | noCartridge hbelow hgiven hfile =>
    rw [ofArguments_of_ok hbelow.base_eq, hgiven, hfile]
    rfl
  | settings hbelow hnamed hover =>
    obtain rfl := overlaid_iff.mp hover
    obtain ⟨path, hpath⟩ := exists_orElse hnamed
    rw [ofArguments_of_ok hbelow.base_eq, hpath]

theorem ofArguments_eq_iff : ofArguments parse disk a = r ↔ AskedFor parse disk a r :=
  ⟨fun h => h ▸ askedFor_ofArguments parse disk a, AskedFor.ofArguments_eq⟩

theorem AskedFor.fits (h : AskedFor parse disk a (.ok s)) : s.viewport.Fits := by
  cases h with
  | settings hbelow _ hover => exact hover.viewport ▸ hbelow.fits

theorem AskedFor.named (h : AskedFor parse disk a (.ok s)) : ∃ path, s.cartridge = some path := by
  cases h with
  | settings _ hnamed hover =>
    obtain rfl := overlaid_iff.mp hover
    exact exists_orElse hnamed

end Settings

namespace Console

-- ---------------------------------------------------------------------------
-- Images
-- ---------------------------------------------------------------------------

/-- What reading the images comes to, the cartridge first. The boot image is looked for on the
disk as it is once the cartridge was remarked upon. -/
inductive ImagesGive (disk : List Journal.Record → Disk) (said : List Journal.Record)
    (s : Settings) (path : String) : Except SetupError (Image × Option Image) → Prop
  | noCartridge {reason} : disk said path = .error reason →
      ImagesGive disk said s path (.error (.image path reason))
  | cartridge {cartridge} : disk said path = .ok cartridge → s.boot = none →
      ImagesGive disk said s path (.ok (cartridge, none))
  | noBoot {cartridge bootPath reason} : disk said path = .ok cartridge →
      s.boot = some bootPath →
      disk (said ++ [cartridgeRemark path cartridge]) bootPath = .error reason →
      ImagesGive disk said s path (.error (.image bootPath reason))
  | both {cartridge bootPath boot} : disk said path = .ok cartridge → s.boot = some bootPath →
      disk (said ++ [cartridgeRemark path cartridge]) bootPath = .ok boot →
      ImagesGive disk said s path (.ok (cartridge, some boot))

variable {disk : List Journal.Record → Disk} {said : List Journal.Record} {s : Settings}
  {path : String} {found : Except SetupError (Image × Option Image)}

theorem exists_imagesGive (disk : List Journal.Record → Disk) (said : List Journal.Record)
    (s : Settings) (path : String) : ∃ found, ImagesGive disk said s path found := by
  cases hcartridge : disk said path with
  | error reason => exact ⟨_, .noCartridge hcartridge⟩
  | ok cartridge =>
    cases hboot : s.boot with
    | none => exact ⟨_, .cartridge hcartridge hboot⟩
    | some bootPath =>
      cases hread : disk (said ++ [cartridgeRemark path cartridge]) bootPath with
      | error reason => exact ⟨_, .noBoot hcartridge hboot hread⟩
      | ok boot => exact ⟨_, .both hcartridge hboot hread⟩

theorem loading_eq (h : s.cartridge = some path) : loading s = .read path fun cartridge =>
    .say (cartridgeRemark path cartridge) (loadingBoot s cartridge) := by
  rw [loading, Settings.requireCartridge, h]

theorem run_read_ok {image : Image} (h : disk said path = .ok image) (rest : Image → Loading) :
    (Loading.read path rest).run disk said = (rest image).run disk said := by
  rw [Loading.run, Image.load, h]

theorem run_read_error {reason : ReadError} (h : disk said path = .error reason)
    (rest : Image → Loading) :
    (Loading.read path rest).run disk said = (.error (.image path reason), said) := by
  rw [Loading.run, Image.load, h]

def outfitted (s : Settings) (images : Image × Option Image) : Except SetupError Console :=
  (ofImages? s images.1 images.2).elim (.error .noRoom) .ok

theorem outfitted_of_le {cartridge : Image} {boot : Option Image}
    (h : s.traceCapacity ≤ Trace.largestCapacity) :
    outfitted s (cartridge, boot) = .ok
      ⟨{ Processor.new (.new cartridge boot) s.traceCapacity with debugging := s.debugging },
        s.viewport.clamped⟩ := by
  rw [outfitted, ofImages?, Processor.new?_of_le h]
  rfl

theorem outfitted_of_lt {images : Image × Option Image}
    (h : Trace.largestCapacity < s.traceCapacity) : outfitted s images = .error .noRoom := by
  rw [outfitted, ofImages?, Processor.new?_of_lt h]
  rfl

theorem run_assembled (cartridge : Image) (boot : Option Image) :
    ((assembled s cartridge boot).run disk said).1 = outfitted s (cartridge, boot) := by
  rw [assembled, outfitted]
  cases ofImages? s cartridge boot <;> rfl

theorem ImagesGive.run_loading (h : ImagesGive disk said s path found)
    (hpath : s.cartridge = some path) :
    ((loading s).run disk said).1 = found.bind (outfitted s) := by
  rw [loading_eq hpath]
  cases h with
  | noCartridge hread => rw [run_read_error hread]; rfl
  | cartridge hread hboot =>
    rw [run_read_ok hread, Loading.run, loadingBoot, hboot]
    exact run_assembled _ none
  | noBoot hread hboot hread' =>
    rw [run_read_ok hread, Loading.run, loadingBoot, hboot]
    exact congrArg Prod.fst (run_read_error hread' _)
  | both hread hboot hread' =>
    rw [run_read_ok hread, Loading.run, loadingBoot, hboot]
    refine (congrArg Prod.fst (run_read_ok hread' _)).trans ?_
    rw [Loading.run]
    exact run_assembled _ (some _)

-- ---------------------------------------------------------------------------
-- Frames
-- ---------------------------------------------------------------------------

def SameViewport (c : Console) (_ : List Access) (c' : Console) : Prop := c'.viewport = c.viewport

theorem sameViewport_chain : Action.Chain SameViewport where
  refl _ := rfl
  trans h h' := h'.trans h

theorem sameViewport_onProcessor {α : Type} (x : Action (Processor MemoryMap) α) :
    (onProcessor x).Obeys SameViewport := fun _ => rfl

theorem sameViewport_command (cmd : Command) : cmd.action.Obeys SameViewport := by
  have hstep : step.Obeys SameViewport := sameViewport_onProcessor _
  cases cmd with
  | step => exact .ignore sameViewport_chain hstep
  | runSteps count =>
    exact .ignore sameViewport_chain (.accumulate sameViewport_chain hstep _ _)
  | runFrame => exact .ignore sameViewport_chain (.accumulate sameViewport_chain hstep _ _)
  | _ => exact sameViewport_onProcessor _

theorem viewport_perform (cs : List Command) (c : Console) :
    ((perform cs).run c).state.viewport = c.viewport := by
  induction cs generalizing c with
  | nil => rfl
  | cons cmd cs ih =>
    rw [state_perform_cons, ih]
    exact sameViewport_command cmd c

theorem frame_eq_ofFn {c : Console} (h : c.viewport.Fits) :
    c.frame = Frame.ofFn c.viewport.width c.viewport.height c.picture.pixel := by
  rw [frame, Picture.render_eq_ofFn, (Viewport.clamped_eq_self_iff _).mpr h]

/-- A viewport that fits gives frames of its own size, whatever was done before. -/
theorem frame_perform {c : Console} {v : Viewport} (hc : c.viewport = v) (hv : v.Fits)
    (cs : List Command) :
    let f := ((perform cs).run c).state.frame
    f.width = v.width ∧ f.height = v.height ∧ f.pixels.size = v.width * v.height := by
  have hviewport : ((perform cs).run c).state.viewport = v := (viewport_perform cs c).trans hc
  rw [frame_eq_ofFn (hviewport ▸ hv), hviewport]
  exact ⟨rfl, rfl, Frame.size_ofFn _ _ _⟩

/-- Whatever takes the text of a file for settings, arguments come to what the rules for them
say: of all that can be wrong, to the first thing, and otherwise to settings. For settings with
which nothing is wrong a console is loaded, unless an image cannot be read, of which the
cartridge is missed first, or there cannot be room for the trace. It has the images, and its viewport is the one that was asked for. Whatever state its
processor and all that hangs on it are put into, and whatever is done from there, its frames
have exactly that size. -/
theorem setup_outcome (parse : Settings.Parse) (files : Disk) (a : Arguments) :
    (∀ r, Settings.ofArguments parse files a = r ↔ Settings.AskedFor parse files a r) ∧
    ∀ s, Settings.ofArguments parse files a = .ok s →
      s.viewport.clamped = s.viewport ∧
      ∃ path, s.cartridge = some path ∧
        ∀ disk said, (∃ found, ImagesGive disk said s path found) ∧
          ∀ found, ImagesGive disk said s path found →
            let loaded := ((loading s).run disk said).1
            match found with
            | .error e => loaded = .error e
            | .ok (cartridge, boot) =>
              (0x3FFFFFFFFFFFFFF < s.traceCapacity → loaded = .error .noRoom) ∧
              (s.traceCapacity ≤ 0x3FFFFFFFFFFFFFF → ∃ c, loaded = .ok c ∧
                c.viewport = s.viewport ∧
                c.processor = { Processor.new (.new cartridge boot) s.traceCapacity with
                  debugging := s.debugging } ∧
                ∀ p cs, let f := ((perform cs).run { c with processor := p }).state.frame
                  f.width = s.viewport.width ∧ f.height = s.viewport.height ∧
                    f.pixels.size = s.viewport.width * s.viewport.height) := by
  refine ⟨fun r => Settings.ofArguments_eq_iff, fun s hs => ?_⟩
  have hasked : Settings.AskedFor parse files a (.ok s) := Settings.ofArguments_eq_iff.mp hs
  have hclamped := (Viewport.clamped_eq_self_iff s.viewport).mpr hasked.fits
  obtain ⟨path, hpath⟩ := hasked.named
  refine ⟨hclamped, path, hpath, fun disk said => ⟨exists_imagesGive disk said s path, ?_⟩⟩
  intro found hfound
  cases found with
  | error e => exact hfound.run_loading hpath
  | ok images =>
    obtain ⟨cartridge, boot⟩ := images
    have hrun : ((loading s).run disk said).1 = outfitted s (cartridge, boot) :=
      hfound.run_loading hpath
    refine ⟨fun hlarge => hrun.trans (outfitted_of_lt hlarge), fun hsmall => ?_⟩
    exact ⟨_, hrun.trans (outfitted_of_le hsmall), hclamped, rfl,
      fun p cs => frame_perform hclamped hasked.fits cs⟩

-- ---------------------------------------------------------------------------
-- Two settings files
-- ---------------------------------------------------------------------------

def shelf (text : String) : Disk := Disk.ofList
  [("c.json", .ok text.toUTF8), ("game.gb", .ok ⟨#[0x76]⟩), ("boot.bin", .ok ⟨#[0x00, 0x3C]⟩)]

def limited : Arguments := { settings := some "c.json", maxSteps := some 7 }

def wideText : String :=
  "\x7b\"rom_path\": \"game.gb\", \"boot_rom_path\": \"boot.bin\", \"max_steps\": 5, " ++
    "\"viewport\": \x7b\"width\": 256, \"height\": 1\x7d\x7d"

def wide : Settings where
  cartridge := some "game.gb"
  boot := some "boot.bin"
  maxSteps := some 7
  viewport := ⟨256, 1⟩

theorem eq_ok_of_toOption {ε α : Type} {x : Except ε α} {v : α} (h : x.toOption = some v) :
    x = .ok v := by
  cases x with
  | error e => cases h
  | ok w => exact congrArg Except.ok (Option.some.inj h)

theorem ofText_wide : Settings.ofText wideText = .ok { wide with maxSteps := some 5 } :=
  eq_ok_of_toOption (by decide +kernel)

theorem ofArguments_wide :
    Settings.ofArguments Settings.ofText (shelf wideText) limited = .ok wide :=
  Settings.ofArguments_eq_iff.mpr <| .settings
    (.file rfl (.settings rfl ofText_wide ⟨by decide, by decide⟩)) (.inr nofun)
    (Settings.overlaid_iff.mpr rfl)

theorem setup_outcome_wide :
    Settings.ofArguments Settings.ofText (shelf wideText) limited = .ok wide ∧
      ∃ c, ofSettings (shelf wideText) wide = .ok c ∧
        ∀ p cs, let f := ((perform cs).run { c with processor := p }).state.frame
          f.width = 256 ∧ f.height = 1 ∧ f.pixels.size = 256 := by
  obtain ⟨-, path, hpath, hload⟩ :=
    (setup_outcome Settings.ofText (shelf wideText) limited).2 wide ofArguments_wide
  obtain rfl : path = "game.gb" := (Option.some.inj hpath).symm
  have himages : ImagesGive (fun _ => shelf wideText) [] wide "game.gb"
      (.ok (⟨#[0x76]⟩, some ⟨#[0x00, 0x3C]⟩)) := .both rfl rfl rfl
  obtain ⟨c, hc, -, -, hframe⟩ := ((hload _ []).2 _ himages).2 (by decide)
  exact ⟨ofArguments_wide, c, hc, hframe⟩

/-- Everything that can be asked for fits into 64 bits, but not everything into memory. -/
def greedyText : String :=
  "\x7b\"rom_path\": \"game.gb\", \"trace_capacity\": 18446744073709551615\x7d"

def greedy : Settings where
  cartridge := some "game.gb"
  maxSteps := some 7
  traceCapacity := 0xFFFFFFFFFFFFFFFF

theorem ofText_greedy : Settings.ofText greedyText = .ok { greedy with maxSteps := none } :=
  eq_ok_of_toOption (by decide +kernel)

theorem ofArguments_greedy :
    Settings.ofArguments Settings.ofText (shelf greedyText) limited = .ok greedy :=
  Settings.ofArguments_eq_iff.mpr <| .settings
    (.file rfl (.settings rfl ofText_greedy ⟨by decide, by decide⟩)) (.inr nofun)
    (Settings.overlaid_iff.mpr rfl)

/-- Settings that are accepted and images that can be read do not always come to a console. -/
theorem readable_without_console :
    ¬ ∀ (files : Disk) (a : Arguments) (s : Settings),
      Settings.ofArguments Settings.ofText files a = .ok s →
      (∀ path, s.cartridge = some path ∨ s.boot = some path →
        ∃ image, files path = .ok image) →
      ∃ c, ofSettings files s = .ok c := by
  intro h
  have hreadable : ∀ path, greedy.cartridge = some path ∨ greedy.boot = some path →
      ∃ image, shelf greedyText path = .ok image := by
    rintro path (hpath | hpath)
    · obtain rfl : path = "game.gb" := (Option.some.inj hpath).symm
      exact ⟨_, rfl⟩
    · cases hpath
  obtain ⟨c, hc⟩ := h _ _ _ ofArguments_greedy hreadable
  have himages : ImagesGive (fun _ => shelf greedyText) [] greedy "game.gb"
      (.ok (⟨#[0x76]⟩, none)) := .cartridge rfl rfl
  have hrun : ofSettings (shelf greedyText) greedy = outfitted greedy (⟨#[0x76]⟩, none) :=
    himages.run_loading rfl
  rw [outfitted_of_lt (by decide)] at hrun
  cases hrun.symm.trans hc

end Console

end Handheld
