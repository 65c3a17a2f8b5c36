import MUtils.Verify.LayoutFile

/-!
# Saving and loading the visibility of windows

A layout is saved with the flag of every registered window, next to flags that the layout had
already. The flags are reached through pointers, which several keys may share: such keys have the
same flag when a layout is saved, so that it does not matter in which order they are loaded. Between
saving and loading, windows may be registered whose keys the layout has no flag for (`Between`).
-/

namespace MUtils

open Std (ExtTreeMap)

/-- What may happen between saving a layout with the given flags and loading it: flags of windows
change, and windows are registered that the layout has no flag for. -/
inductive Between (showFlags : LayoutShowFlags) (p : LayoutProcess Contents) :
    LayoutProcess Contents → Prop
  | start : Between showFlags p p
  | flags (visible : Nat → Bool) : Between showFlags p q →
      Between showFlags p { q with visible }
  | register (name : Text) (showState : Nat) : Between showFlags p q → key ∉ showFlags →
      Between showFlags p (layout_manager_register_window q key name showState)

variable {Contents : Type} {p q : LayoutProcess Contents} {layoutName key : Text} {w : WindowState}
  {pVisible : Nat}

/-- Layouts and windows with a flag in the layout stay what they are. -/
theorem Between.kept {showFlags : LayoutShowFlags} (h : Between showFlags p q) :
    q.LayoutData.layouts = p.LayoutData.layouts ∧
      ∀ key ∈ showFlags,
        q.LayoutData.mapWindowState[key]? = p.LayoutData.mapWindowState[key]? := by
  induction h with
  | start => exact ⟨rfl, fun _ _ => rfl⟩
  | flags visible _ ih => exact ih
  | @register q key name showState _ hkey ih =>
    refine ⟨ih.1, fun key' hkey' => ?_⟩
    have hne : key ≠ key' := by
      rintro rfl
      exact hkey hkey'
    rw [← ih.2 key' hkey', layout_manager_register_window, ExtTreeMap.getElem?_insert,
      if_neg (mt Std.LawfulEqCmp.compare_eq_iff_eq.mp hne)]

theorem mem_of_flag {showFlags : LayoutShowFlags} {visible : Bool}
    (h : showFlags[key]? = some visible) : key ∈ showFlags :=
  ExtTreeMap.mem_iff_isSome_getElem?.mpr (Option.isSome_of_eq_some h)

/-! ### Saving -/

/-- The flags that a layout is saved with. -/
def savedFlags (p : LayoutProcess Contents) (layoutName : Text) : LayoutShowFlags :=
  p.LayoutData.mapWindowState.foldl
    (fun showFlags key value => showFlags.insert key (p.visible value.pVisible))
    (p.LayoutData.layouts.getD layoutName {}).showFlags

theorem savedFlags_registered (hw : p.LayoutData.mapWindowState[key]? = some w) :
    (savedFlags p layoutName)[key]? = some (p.visible w.pVisible) := by
  have hmem : (key, w) ∈ p.LayoutData.mapWindowState.toList :=
    ExtTreeMap.mem_toList_iff_getElem?_eq_some.mpr hw
  have hhit : ∀ (showFlags : LayoutShowFlags) (e : Text × WindowState), e.1 = key →
      (showFlags.insert e.1 (p.visible e.2.pVisible))[key]? = some (p.visible e.2.pVisible) := by
    intro showFlags e he
    rw [he, ExtTreeMap.getElem?_insert_self]
  have hmiss : ∀ (showFlags : LayoutShowFlags) (e : Text × WindowState), e.1 ≠ key →
      (showFlags.insert e.1 (p.visible e.2.pVisible))[key]? = showFlags[key]? := by
    intro showFlags e he
    rw [ExtTreeMap.getElem?_insert, if_neg (mt Std.LawfulEqCmp.compare_eq_iff_eq.mp he)]
  rw [savedFlags, ExtTreeMap.foldl_eq_foldl_toList]
  rcases foldl_writes (·[key]?) (·.1 = key) (fun e => some (p.visible e.2.pVisible)) hhit hmiss
    p.LayoutData.mapWindowState.toList (p.LayoutData.layouts.getD layoutName {}).showFlags with
    ⟨e, he, hkey, hread⟩ | ⟨hnone, -⟩
  · -- there is one entry for the key
    have hwe : p.LayoutData.mapWindowState[e.1]? = some e.2 :=
      ExtTreeMap.mem_toList_iff_getElem?_eq_some.mp he
    rw [hkey] at hwe
    rw [hread, Option.some.inj (hwe.symm.trans hw)]
  · exact absurd rfl (hnone _ hmem)

/-- What saving a layout does. -/
theorem save_layout_eq (toml : TomlFormat Contents) (base64 : Base64)
    (p : LayoutProcess Contents) (hname : layoutName ≠ []) (layoutString : Text) :
    ∃ files, layout_manager_save_layout toml base64 p layoutName layoutString =
      { p with
        files
        LayoutData.layouts := p.LayoutData.layouts.insert layoutName
          { windowLayout := layoutString, showFlags := savedFlags p layoutName } } := by
  have hnonempty : ¬layoutName.isEmpty := by simpa using hname
  rw [layout_manager_save_layout, if_neg hnonempty]
  simp only [layout_manager_save_layouts_file]
  split
  · exact ⟨p.files, rfl⟩
  · exact ⟨_, rfl⟩

/-! ### Loading -/

/-- The body of the loop over the flags of a layout. -/
def loadFlag (p : LayoutProcess Contents) (visible : Nat → Bool) (key : Text) (value : Bool) :
    Nat → Bool :=
  match p.LayoutData.mapWindowState[key]? with
  | some found => Function.update visible found.pVisible value
  | none => visible

def loadFlags (p : LayoutProcess Contents) (info : LayoutInfo) : Nat → Bool :=
  info.showFlags.foldl (loadFlag p) p.visible

theorem loadFlag_hit (hw : p.LayoutData.mapWindowState[key]? = some w) (visible : Nat → Bool)
    (value : Bool) : loadFlag p visible key value w.pVisible = value := by
  simp only [loadFlag, hw, Function.update_self]

theorem loadFlag_miss (hmiss : ∀ w, p.LayoutData.mapWindowState[key]? = some w →
    w.pVisible ≠ pVisible) (visible : Nat → Bool) (value : Bool) :
    loadFlag p visible key value pVisible = visible pVisible := by
  cases hw : p.LayoutData.mapWindowState[key]? with
  | none => simp only [loadFlag, hw]
  | some w => simp only [loadFlag, hw, Function.update_of_ne (hmiss w hw).symm]

theorem load_layout_eq {info : LayoutInfo}
    (hinfo : p.LayoutData.layouts[layoutName]? = some info) :
    layout_manager_load_layout p layoutName =
      ({ p with
        LayoutData.lastLayout := layoutName
        visible := loadFlags p info
        calls := p.calls ++ [info] }, p.LayoutData.loadCB info) := by
  rw [layout_manager_load_layout, hinfo]
  rfl

/-- The flag behind a pointer after loading: that of a key in the layout whose window has the
pointer, or what it was. -/
theorem loadFlags_at (p : LayoutProcess Contents) (info : LayoutInfo) (pVisible : Nat) :
    (∃ (key : Text) (w : WindowState), p.LayoutData.mapWindowState[key]? = some w ∧
        w.pVisible = pVisible ∧ info.showFlags[key]? = some (loadFlags p info pVisible)) ∨
      ((∀ key ∈ info.showFlags, ∀ w, p.LayoutData.mapWindowState[key]? = some w →
          w.pVisible ≠ pVisible) ∧
        loadFlags p info pVisible = p.visible pVisible) := by
  have hhit : ∀ visible (e : Text × Bool), (∃ w, p.LayoutData.mapWindowState[e.1]? = some w ∧
      w.pVisible = pVisible) → loadFlag p visible e.1 e.2 pVisible = e.2 := by
    rintro visible e ⟨w, hw, rfl⟩
    exact loadFlag_hit hw visible e.2
  have hmiss : ∀ visible (e : Text × Bool), (¬∃ w, p.LayoutData.mapWindowState[e.1]? = some w ∧
      w.pVisible = pVisible) → loadFlag p visible e.1 e.2 pVisible = visible pVisible := by
    intro visible e he
    exact loadFlag_miss (fun w hw hpointer => he ⟨w, hw, hpointer⟩) visible e.2
  rw [loadFlags, ExtTreeMap.foldl_eq_foldl_toList]
  rcases foldl_writes (· pVisible) _ (·.2) hhit hmiss info.showFlags.toList p.visible with
    ⟨e, he, ⟨w, hw, hpointer⟩, hread⟩ | ⟨hnone, hread⟩
  · refine .inl ⟨e.1, w, hw, hpointer, ?_⟩
    rw [hread]
    exact ExtTreeMap.mem_toList_iff_getElem?_eq_some.mp he
  · refine .inr ⟨fun key hkey w hw hpointer => ?_, hread⟩
    obtain ⟨visible, hvisible⟩ :=
      Option.isSome_iff_exists.mp (ExtTreeMap.mem_iff_isSome_getElem?.mp hkey)
    have hmem : (key, visible) ∈ info.showFlags.toList :=
      ExtTreeMap.mem_toList_iff_getElem?_eq_some.mpr hvisible
    exact hnone _ hmem ⟨w, hw, hpointer⟩

/-- Keys with the same pointer have been saved with the same flag. -/
theorem loadFlags_registered {info : LayoutInfo} (hinfo : info.showFlags = savedFlags p layoutName)
    (hwindows : ∀ key ∈ info.showFlags,
      q.LayoutData.mapWindowState[key]? = p.LayoutData.mapWindowState[key]?)
    (hw : p.LayoutData.mapWindowState[key]? = some w) :
    loadFlags q info w.pVisible = p.visible w.pVisible := by
  rcases loadFlags_at q info w.pVisible with ⟨key', w', hw', hpointer, hflag⟩ | ⟨hnone, -⟩
  · rw [hwindows key' (mem_of_flag hflag)] at hw'
    rw [hinfo, savedFlags_registered hw', hpointer] at hflag
    exact (Option.some.inj hflag).symm
  · have hkey : key ∈ info.showFlags := by
      rw [hinfo]
      exact mem_of_flag (savedFlags_registered hw)
    exact absurd rfl (hnone key hkey w ((hwindows key hkey).trans hw))

/-- **Loading a saved layout restores the windows**: the flag of every window that was registered
when the layout was saved is what it was then, and flags that the layout does not reach stay what
they are. Loading a layout that is not there changes nothing. -/
theorem window_flags_restored (toml : TomlFormat Contents) (base64 : Base64)
    (p : LayoutProcess Contents) (hname : layoutName ≠ []) (layoutString : Text) :
    let saved := layout_manager_save_layout toml base64 p layoutName layoutString
    (∃ info, saved.LayoutData.layouts[layoutName]? = some info ∧
      info.windowLayout = layoutString ∧
      ∀ q, Between info.showFlags saved q →
        let loaded := (layout_manager_load_layout q layoutName).1
        (∀ (key : Text) (w : WindowState), p.LayoutData.mapWindowState[key]? = some w →
          loaded.visible w.pVisible = p.visible w.pVisible) ∧
        (∀ pVisible, (∀ key ∈ info.showFlags, ∀ w, q.LayoutData.mapWindowState[key]? = some w →
            w.pVisible ≠ pVisible) → loaded.visible pVisible = q.visible pVisible) ∧
        loaded.LayoutData.lastLayout = layoutName ∧ loaded.calls = q.calls ++ [info]) ∧
    ∀ (q : LayoutProcess Contents) (layoutName : Text), layoutName ∉ q.LayoutData.layouts →
      layout_manager_load_layout q layoutName = (q, some ()) := by
  obtain ⟨files, hsaved⟩ := save_layout_eq toml base64 p hname layoutString
  simp only [hsaved]
  constructor
  · refine ⟨_, ExtTreeMap.getElem?_insert_self, rfl, fun q hq => ?_⟩
    obtain ⟨hlayouts, hwindows⟩ := hq.kept
    have hinfo : q.LayoutData.layouts[layoutName]? =
        some { windowLayout := layoutString, showFlags := savedFlags p layoutName } := by
      rw [hlayouts, ExtTreeMap.getElem?_insert_self]
    simp only [load_layout_eq hinfo]
    refine ⟨fun key w hw => loadFlags_registered rfl hwindows hw, fun pVisible hnone => ?_, ?_⟩
    · rcases loadFlags_at q ⟨layoutString, savedFlags p layoutName⟩ pVisible with
        ⟨key, w, hw, hpointer, hflag⟩ | ⟨-, hsame⟩
      · exact absurd hpointer (hnone key (mem_of_flag hflag) w hw)
      · exact hsame
    · exact ⟨trivial, trivial⟩
  · intro q layoutName hnot
    rw [layout_manager_load_layout, ExtTreeMap.getElem?_eq_none hnot]

theorem window_flags_restored_hidden :
    let p : LayoutProcess TomlValue := layout_manager_register_window
      { visible := fun _ => true, files := fun _ => none } ['k'] ['w'] 0
    let saved := layout_manager_save_layout .verbatim .verbatim p ['a'] ['t']
    (layout_manager_load_layout { saved with visible := fun _ => false } ['a']).1.visible 0 =
      true := by
  intro p saved
  have hname : ['a'] ≠ [] := nofun
  obtain ⟨⟨info, -, -, hloaded⟩, -⟩ := window_flags_restored .verbatim .verbatim p hname ['t']
  have hhidden : Between info.showFlags saved { saved with visible := fun _ => false } :=
    .flags _ .start
  exact (hloaded _ hhidden).1 ['k'] ⟨['w'], 0⟩ ExtTreeMap.getElem?_insert_self

end MUtils
