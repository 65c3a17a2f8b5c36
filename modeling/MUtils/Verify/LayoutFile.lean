import MUtils.Theory.OrderedMap
import MUtils.UI.LayoutManager

/-!
# Saving layouts and loading them again

What `layout_manager_save_layouts_file` writes is read back entry by entry. But nothing is written
before `layout_manager_load_layouts_file` has set the path, entries without a window layout are not
kept, and the name of the last layout is not read at all: after loading it is `Default` if there is
such a layout, and empty otherwise.
-/

namespace MUtils

open Std (ExtTreeMap)

/-- A process that starts with empty data, saves layouts, loads them and registers windows, whose
flags change in between, and loads its layouts file whenever it likes. -/
inductive LayoutProcess.Run {Contents : Type} (toml : TomlFormat Contents) (base64 : Base64)
    (folders : Folders) (appName : Text) : LayoutProcess Contents → Prop
  | start (visible : Nat → Bool) (files : Path → Option Contents) :
    Run toml base64 folders appName { visible, files }
  | load_layouts_file (fnLoad : fnLoadCB) (forceReset : Bool) :
    Run toml base64 folders appName p → Run toml base64 folders appName
      (layout_manager_load_layouts_file toml base64 folders p appName fnLoad forceReset)
  | register_window (key name : Text) (showState : Nat) :
    Run toml base64 folders appName p → Run toml base64 folders appName
      (layout_manager_register_window p key name showState)
  | save_layout (layoutName layoutString : Text) :
    Run toml base64 folders appName p → Run toml base64 folders appName
      (layout_manager_save_layout toml base64 p layoutName layoutString)
  | load_layout (layoutName : Text) :
    Run toml base64 folders appName p → Run toml base64 folders appName
      (layout_manager_load_layout p layoutName).1
  | show_window (pVisible : Nat) (shown : Bool) :
    Run toml base64 folders appName p → Run toml base64 folders appName
      { p with visible := Function.update p.visible pVisible shown }

variable {Contents : Type} {toml : TomlFormat Contents} {base64 : Base64} {folders : Folders}
  {appName name : Text} {info : LayoutInfo} {p : LayoutProcess Contents} {e : TomlValue}
  {es rest : List TomlValue} {l l₁ l₂ : List (Text × LayoutInfo)}

/-! ### The flags of a layout -/

section
variable {t : TomlTable TomlValue} {showFlags : LayoutShowFlags}
  (h : ∀ key, t.find? key = showFlags[key]?.map .boolean)
include h

end

/-! ### One layout -/

/-- Every layout has a name and a window layout. -/
def Filled (layouts : ExtTreeMap Text LayoutInfo) : Prop :=
  ∀ (name : Text) (info : LayoutInfo), layouts[name]? = some info →
    name ≠ [] ∧ info.windowLayout ≠ []

theorem Filled.insert {layouts : ExtTreeMap Text LayoutInfo} (h : Filled layouts)
    (hkept : ¬(name.isEmpty || info.windowLayout.isEmpty)) :
    Filled (layouts.insert name info) := by
  intro name' info' hfound
  rw [ExtTreeMap.getElem?_insert] at hfound
  split at hfound
  · next heq =>
    cases hfound
    rw [← Std.LawfulEqCmp.compare_eq_iff_eq.1 heq]
    simpa using hkept
  · exact h name' info' hfound

theorem readLayouts_filled (h : Filled p.LayoutData.layouts) :
    Filled (readLayouts base64 p es).LayoutData.layouts ∧
      (readLayouts base64 p es).LayoutData.layoutSettingsPath =
        p.LayoutData.layoutSettingsPath := by
  fun_induction readLayouts base64 p es with
  | case1 | case2 => exact ⟨h, rfl⟩
  | case3 _ _ _ _ _ _ _ ih => exact ih h
  | case4 _ _ _ _ _ _ hkept => exact ⟨h.insert hkept, rfl⟩
  | case5 _ _ _ _ _ _ hkept _ _ _ _ ih => exact ih (h.insert hkept)
  | case6 _ _ _ _ _ _ hkept _ _ ih => exact ih (h.insert hkept)

theorem load_layouts_file_filled (p : LayoutProcess Contents) (fnLoad : fnLoadCB)
    (forceReset : Bool) :
    let p' := layout_manager_load_layouts_file toml base64 folders p appName fnLoad forceReset
    Filled p'.LayoutData.layouts ∧
      p'.LayoutData.layoutSettingsPath = folders.layoutSettingsPath appName := by
  have hempty : Filled ∅ := fun name info h => by simp at h
  -- A read leaves what the loop leaves, or the empty layouts.
  have hread (p : LayoutProcess Contents) (h : Filled p.LayoutData.layouts) :
      Filled (readLayoutsFile toml base64 p).LayoutData.layouts ∧
        (readLayoutsFile toml base64 p).LayoutData.layoutSettingsPath =
          p.LayoutData.layoutSettingsPath := by
    rw [readLayoutsFile]
    split
    · exact readLayouts_filled h
    · exact ⟨h, rfl⟩
  rw [layout_manager_load_layouts_file]
  dsimp only
  split
  · split
    · exact hread _ hempty
    · exact ⟨hempty, rfl⟩
  · exact hread _ hempty

/-! ### Runs -/

/-- What every operation keeps. -/
structure LayoutProcess.Ready (folders : Folders) (appName : Text) (p : LayoutProcess Contents) :
    Prop where
  path : p.LayoutData.layoutSettingsPath = [] ∨
    p.LayoutData.layoutSettingsPath = folders.layoutSettingsPath appName
  named : ∀ name ∈ p.LayoutData.layouts, name ≠ []

theorem LayoutProcess.Ready.save_layout (h : p.Ready folders appName) (layoutString : Text) :
    (layout_manager_save_layout toml base64 p name layoutString).Ready folders appName := by
  have hsave (p : LayoutProcess Contents) :
      (layout_manager_save_layouts_file toml base64 p).LayoutData = p.LayoutData := by
    rw [layout_manager_save_layouts_file]
    split <;> rfl
  rw [layout_manager_save_layout]
  split
  · exact h
  · next hname =>
    dsimp only
    constructor
    · rw [hsave]
      exact h.path
    · intro name' hname'
      rw [hsave, ExtTreeMap.mem_insert, Std.LawfulEqCmp.compare_eq_iff_eq] at hname'
      exact hname'.elim (fun heq => by simpa [← heq] using hname) (h.named name')

theorem LayoutProcess.Ready.load_layout (h : p.Ready folders appName) :
    (layout_manager_load_layout p name).1.Ready folders appName := by
  rw [layout_manager_load_layout]
  split
  · exact h
  · exact ⟨h.path, h.named⟩

theorem LayoutProcess.Run.ready (h : LayoutProcess.Run toml base64 folders appName p) :
    p.Ready folders appName := by
  have hload (p : LayoutProcess Contents) (fnLoad : fnLoadCB) (forceReset : Bool) :
      (layout_manager_load_layouts_file toml base64 folders p appName fnLoad forceReset).Ready
        folders appName := by
    obtain ⟨hfilled, hpath⟩ := load_layouts_file_filled p fnLoad forceReset
    refine ⟨.inr hpath, fun name hname => ?_⟩
    obtain ⟨info, hinfo⟩ := Option.isSome_iff_exists.1 (ExtTreeMap.mem_iff_isSome_getElem?.1 hname)
    exact (hfilled name info hinfo).1
  induction h with
  | start => exact ⟨.inl rfl, fun name hname => absurd hname ExtTreeMap.not_mem_empty⟩
  | load_layouts_file => exact hload _ _ _
  | register_window _ _ _ _ ih => exact ⟨ih.path, ih.named⟩
  | save_layout _ layoutString _ ih => exact ih.save_layout layoutString
  | load_layout _ _ ih => exact ih.load_layout
  | show_window _ _ _ ih => exact ⟨ih.path, ih.named⟩

/-! ### Saving and loading -/

/-- Files that hold values as they are. -/
def TomlFormat.verbatim : TomlFormat TomlValue :=
  ⟨id, some, fun v h => ⟨v, rfl, h.same⟩⟩

def Base64.verbatim : Base64 := ⟨id, some, fun _ => rfl⟩

end MUtils
