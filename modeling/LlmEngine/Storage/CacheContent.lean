/-
# LlmEngine.Storage.CacheContent — an entry shows what the source produced for its key.

The four parts of an entry (bytes, payload offset, size, metadata) are written at different moments.
`admit` describes into a scratch buffer and touches the victim only once the key is admissible.  The
batch path describes straight into the victim's metadata while the victim still holds its old key;
its comment says that a refusal costs nothing, but a source that writes metadata and then refuses
(or reports an object too large for a slot) leaves the resident key with another key's metadata.
The payload offset passes through an `int32_t`.

`Clean` excludes those two accidents and nothing else; `Content` is inductive along clean calls.

* `Served` is what is said of a slot and its key: there were a describe and a load of that key, and the slot has
  what they produced, all four parts.
* `Served.frame`: what leaves the slot and its metadata alone leaves that as it is.  Every phase of a batch is
  compared with this.
* The log is what a describe or a load produced, so the property is about values and not about what the source
  would say if asked again.
-/
import LlmEngine.Storage.CacheIndex

namespace LlmEngine.Storage.Cache

open LlmEngine.Storage LlmEngine.Lib EngCache

variable {σ : Type} {m : Nat} {c c' : EngCache σ m}

/-! ## The property -/

/-- The entry is what the source produced for `k`: the metadata one `describe` of `k` wrote, and
the size and bytes one `load` of `k`, given that metadata, delivered at the offset it reported. -/
def Genuine (c : EngCache σ m) (k : Nat) (e : EngCacheEntry m) : Prop :=
  ∃ slot off buf, Event.describe k 0 e.nbytes e.slotMeta ∈ c.log ∧
    Event.load k slot e.slotMeta e.nbytes e.nbytes off buf ∈ c.log ∧
    ∀ i : Nat, (i : Int) < e.nbytes → c.arena (e.data + i) = buf (off + i).toNat

/-- Slot `slot` holds a full load of `k`, described and loaded with the slot's metadata. -/
def Delivered (c : EngCache σ m) (k slot : Nat) (need off : Int) : Prop :=
  ∃ buf, Event.describe k 0 need (c.slotMeta slot) ∈ c.log ∧
    Event.load k slot (c.slotMeta slot) need need off buf ∈ c.log ∧
    (0 ≤ need → 0 ≤ off ∧ off + need ≤ c.stride) ∧
    ∀ i : Nat, (i : Int) < need → c.arena (c.slotBase slot + off + i) = buf (off + i).toNat

/-- The slot's own records agree with what was delivered. -/
def Served (c : EngCache σ m) (slot k : Nat) : Prop :=
  Delivered c k slot (c.nbytes slot) (c.pad slot)

/-- Every resident key is served. -/
def Content (c : EngCache σ m) : Prop := ∀ slot k, c.keyOf slot = .key k → Served c slot k

theorem Served.genuine {slot k : Nat} (h : Served c slot k) : Genuine c k (c.entryOf slot) := by
  obtain ⟨buf, hdesc, hload, -, hbytes⟩ := h
  exact ⟨slot, c.pad slot, buf, hdesc, hload, hbytes⟩

/-- `c'` has in slot `slot` the bytes and the metadata `c` had; the log may have grown. -/
structure SameSlot (c c' : EngCache σ m) (slot : Nat) : Prop where
  stride : c'.stride = c.stride
  log : c.log ⊆ c'.log
  slotMeta : c'.slotMeta slot = c.slotMeta slot
  arena : ∀ a, c.slotBase slot ≤ a → a < c.slotBase slot + c.stride → c'.arena a = c.arena a

theorem SameSlot.trans {c'' : EngCache σ m} {slot : Nat} (h : SameSlot c c' slot)
    (h' : SameSlot c' c'' slot) : SameSlot c c'' slot where
  stride := h'.stride.trans h.stride
  log := fun _ he => h'.log (h.log he)
  slotMeta := h'.slotMeta.trans h.slotMeta
  arena := by
    intro a hlo hhi
    have hbase : c'.slotBase slot = c.slotBase slot := by unfold slotBase; rw [h.stride]
    rw [h'.arena a (by rw [hbase]; exact hlo) (by rw [hbase, h.stride]; exact hhi)]
    exact h.arena a hlo hhi

/-- A step that moves no byte and leaves the slot's metadata alone. -/
theorem SameSlot.of_arena {slot : Nat} (hstride : c'.stride = c.stride) (hlog : c.log ⊆ c'.log)
    (hmeta : c'.slotMeta slot = c.slotMeta slot) (harena : c'.arena = c.arena) :
    SameSlot c c' slot :=
  ⟨hstride, hlog, hmeta, fun a _ _ => by rw [harena]⟩

/-- A load leaves every other slot as it was. -/
theorem loaded_sameSlot (c : EngCache σ m) (key : Nat) {slot s : Nat} (need : Int) (hne : s ≠ slot) :
    SameSlot c (c.loaded key slot need) s where
  stride := rfl
  log := List.subset_cons_self _ _
  slotMeta := rfl
  arena := by
    intro a hlo hhi
    simp only [loaded]
    rw [if_neg]
    intro hin
    exact hne (slotBase_unique ⟨hlo, hhi⟩ hin)

theorem Delivered.frame {k slot : Nat} {need off : Int} (h : Delivered c k slot need off)
    (hs : SameSlot c c' slot) : Delivered c' k slot need off := by
  obtain ⟨buf, hdesc, hload, hin, hbytes⟩ := h
  have hbase : c'.slotBase slot = c.slotBase slot := by unfold slotBase; rw [hs.stride]
  refine ⟨buf, ?_, ?_, hs.stride ▸ hin, fun i hi => ?_⟩
  · rw [hs.slotMeta]
    exact hs.log hdesc
  · rw [hs.slotMeta]
    exact hs.log hload
  · obtain ⟨hlo, hhi⟩ := hin (by omega)
    rw [hbase, hs.arena _ (by omega) (by omega)]
    exact hbytes i hi

theorem Served.frame {slot k : Nat} (h : Served c slot k) (hs : SameSlot c c' slot)
    (hnbytes : c'.nbytes slot = c.nbytes slot) (hpad : c'.pad slot = c.pad slot) :
    Served c' slot k := by
  unfold Served at h ⊢
  rw [hnbytes, hpad]
  exact Delivered.frame h hs

/-- **A full load delivers**, if its slot carries the metadata the key was described with. -/
theorem loaded_delivered {key slot : Nat} {need : Int}
    (hdesc : Event.describe key 0 need (c.slotMeta slot) ∈ c.log)
    (hgot : (c.load key slot).got = need) :
    Delivered (c.loaded key slot need) key slot need (c.load key slot).payloadOff := by
  have hin := (c.load key slot).inside
  rw [hgot] at hin
  refine ⟨(c.load key slot).buf, List.mem_cons_of_mem _ hdesc, ?_, hin, fun i hi => ?_⟩
  · have hev : (c.loaded key slot need).log = .load key slot (c.slotMeta slot) need
        (c.load key slot).got (c.load key slot).payloadOff (c.load key slot).buf :: c.log := rfl
    rw [hev, hgot]
    exact List.mem_cons_self ..
  · obtain ⟨hlo, hhi⟩ := hin (by omega)
    show (if c.slotBase slot ≤ _ ∧ _ then _ else _) = _
    rw [if_pos ⟨by show _ ≤ c.slotBase slot + _ + _; omega,
      by show c.slotBase slot + _ + _ < _; omega⟩]
    congr 2
    show c.slotBase slot + _ + _ - _ = _
    omega

/-- Registering a delivered key, its offset intact, serves it. -/
theorem Delivered.publish {key slot : Nat} {need off : Int} (h : Delivered c key slot need off)
    (hfits : toInt32 off = off) : Served (c.publish key slot need off) slot key := by
  have hpad : (c.publish key slot need off).pad slot = off := by
    simp [EngCache.publish, hfits]
  have hnbytes : (c.publish key slot need off).nbytes slot = need := by
    simp [EngCache.publish]
  unfold Served
  rw [hpad, hnbytes]
  exact h.frame (.of_arena rfl (List.Subset.refl _) rfl rfl)

/-- Registering a key leaves what other slots serve. -/
theorem publish_served_other {slot k : Nat} (key slot' : Nat) (need off : Int) (hne : slot ≠ slot')
    (h : Served c slot k) : Served (c.publish key slot' need off) slot k :=
  h.frame (.of_arena rfl (List.Subset.refl _) rfl rfl) (Function.update_of_ne hne _ _)
    (Function.update_of_ne hne _ _)

/-! ## The condition -/

/-- A load that delivered in full reported an offset that survives `(int32_t)`. -/
def Fits {cap : Int} (r : Loaded σ cap) (need : Int) : Prop :=
  r.got = need → toInt32 r.payloadOff = r.payloadOff

/-- If the batch is about to describe `k` into the metadata of a slot that holds a key, and `k` is
refused, then the metadata is left as it was. -/
def RefusalHarmless (c : EngCache σ m) (k : Nat) : Prop :=
  ∀ slot old, c.pickVictim = some slot → c.keyOf slot = .key old →
    refused c (c.src.describe c.ctx k (c.slotMeta slot)) →
      (c.src.describe c.ctx k (c.slotMeta slot)).wrote = c.slotMeta slot

/-- No iteration of the reserve loop clobbers a resident key. -/
def ReserveClean (c : EngCache σ m) : List Nat → List Work → Prop
  | [], _ => True
  | k :: ks, w =>
      w.length < engCacheMaxBatch →
        (c.inRange k → c.slotOf k = none → (∀ x ∈ w, x.key ≠ k) → RefusalHarmless c k) ∧
        match reserveOne c w k with
        | .skip c' => ReserveClean c' ks w
        | .stop => True
        | .take c' x => ReserveClean c' ks (w ++ [x])

def LoadsClean (c : EngCache σ m) : List Work → Prop
  | [] => True
  | w :: ws => Fits (c.load w.key w.slot) w.need ∧ LoadsClean (c.loaded w.key w.slot w.need) ws

/-- The load that `admit` makes, if it makes one, reports an offset that fits. -/
def AdmitClean (c : EngCache σ m) (key : Nat) : Prop :=
  c.slotOf key = none → ∀ slot, (admitDescribed c key).1.pickVictim = some slot →
    ¬ refused c (admitDescribed c key).2 →
      Fits (((admitDescribed c key).1.install slot (admitDescribed c key).2.wrote).load key slot)
        (admitDescribed c key).2.nbytes

/-- **The condition on one call.** -/
def Clean (c : EngCache σ m) : Op → Prop
  | .get key => c.inRange key → AdmitClean (record c key) key
  | .getMany keys =>
      ReserveClean c keys [] ∧
        LoadsClean (reserve c keys []).1 (issueOrder (reserve c keys []).1 (reserve c keys []).2)
  | _ => True

/-! ## Single requests -/

/-- Nothing about the slots changes but the log. -/
theorem Content.congr (h : Content c) (hkeyOf : c'.keyOf = c.keyOf) (hstride : c'.stride = c.stride)
    (hlog : c.log ⊆ c'.log) (hmeta : c'.slotMeta = c.slotMeta) (harena : c'.arena = c.arena)
    (hnbytes : c'.nbytes = c.nbytes) (hpad : c'.pad = c.pad) : Content c' := by
  intro slot k hk
  rw [hkeyOf] at hk
  exact (h slot k hk).frame (.of_arena hstride hlog (by rw [hmeta]) harena) (by rw [hnbytes])
    (by rw [hpad])

theorem fill_content (h : Content c) {key slot : Nat} {need : Int} {wrote : Vector UInt8 m}
    (hdesc : Event.describe key 0 need wrote ∈ c.log)
    (hfits : Fits ((c.install slot wrote).load key slot) need) :
    Content (fill c key slot need wrote).1 := by
  -- every other slot, up to the registration
  have hother : ∀ s k, s ≠ slot → c.keyOf s = .key k →
      Served ((c.install slot wrote).loaded key slot need) s k := by
    intro s k hs hk
    have hinst : SameSlot c (c.install slot wrote) s :=
      .of_arena rfl (List.Subset.refl _) (Function.update_of_ne hs _ _) rfl
    exact (h s k hk).frame (hinst.trans (loaded_sameSlot _ key need hs)) rfl rfl
  by_cases hgot : ((c.install slot wrote).load key slot).got = need
  · rw [fill_full hgot]
    intro s k hk
    have hk : Function.update c.keyOf slot (.key key) s = .key k := hk
    by_cases hs : s = slot
    · subst hs
      rw [Function.update_self] at hk
      obtain rfl := SlotState.key.inj hk
      have hdesc' : Event.describe key 0 need ((c.install s wrote).slotMeta s) ∈
          (c.install s wrote).log := by
        show Event.describe key 0 need (Function.update c.slotMeta s wrote s) ∈ c.log
        rwa [Function.update_self]
      exact (loaded_delivered hdesc' hgot).publish (hfits hgot)
    · rw [Function.update_of_ne hs] at hk
      exact publish_served_other key slot need _ hs (hother s k hs hk)
  · rw [fill_short hgot]
    intro s k hk
    have hk : Function.update c.keyOf slot .empty s = .key k := hk
    by_cases hs : s = slot
    · subst hs
      rw [Function.update_self] at hk
      cases hk
    · rw [Function.update_of_ne hs] at hk
      exact (hother s k hs hk).frame (.of_arena rfl (List.Subset.refl _) rfl rfl) rfl rfl

theorem admitKey_content (h : Content c) {key : Nat} (hclean : AdmitClean c key) :
    Content (admitKey c key).1 := by
  have hdesc : Content (admitDescribed c key).1 :=
    h.congr rfl rfl (List.subset_cons_self _ _) rfl rfl rfl rfl
  rcases admitKey_cases c key with ⟨slot, -, heq⟩ | ⟨-, -, heq⟩ | ⟨hs, hok, slot, hv, heq⟩
  · rw [heq]
    exact h.congr rfl rfl (List.Subset.refl _) rfl rfl rfl rfl
  · rw [heq]
    exact hdesc
  · rw [heq]
    have hrc : (admitDescribed c key).2.rc = 0 := not_not.mp fun hne => hok (.inl hne)
    have hev : Event.describe key 0 (admitDescribed c key).2.nbytes
        (admitDescribed c key).2.wrote ∈ (admitDescribed c key).1.log := by
      rw [← hrc]
      exact List.mem_cons_self ..
    exact fill_content hdesc hev (hclean hs slot hv hok)

/-! ## Batches -/

/-- Every slot of the work list carries the metadata its key was described with. -/
def WorkDescribed (c : EngCache σ m) (ws : List Work) : Prop :=
  ∀ w ∈ ws, Event.describe w.key 0 w.need (c.slotMeta w.slot) ∈ c.log

theorem describedInto_sameSlot {k slot s : Nat} (hne : s ≠ slot) :
    SameSlot c (describedInto c k slot) s :=
  .of_arena rfl (List.subset_cons_self _ _) (Function.update_of_ne hne _ _) rfl

/-- A slot in flight is not the one given away next. -/
theorem Batch.slot_ne {ws : List Work} (h : Batch c ws) {slot : Nat} (hfree : Free c slot) {w : Work}
    (hw : w ∈ ws) : w.slot ≠ slot := by
  rintro rfl
  have hfl := (h.inflight w.slot).mpr (List.mem_map_of_mem hw)
  rcases hfree with hempty | ⟨⟨k, hk⟩, _⟩
  · rw [hempty] at hfl
    cases hfl
  · rw [hk] at hfl
    cases hfl

theorem reserve_content : ∀ (ks : List Nat) {c : EngCache σ m} {w : List Work}, Batch c w →
    Content c → WorkDescribed c w → ReserveClean c ks w →
    Content (reserve c ks w).1 ∧ WorkDescribed (reserve c ks w).1 (reserve c ks w).2
  | [], c, w, _, hc, hw, _ => ⟨hc, hw⟩
  | k :: ks, c, w, h, hc, hw, hclean => by
      unfold reserve
      split_ifs with hfull
      · exact ⟨hc, hw⟩
      · unfold ReserveClean at hclean
        obtain ⟨hharm, hrest⟩ := hclean (not_le.mp hfull)
        rcases reserveOne_cases c w k with heq | ⟨-, heq⟩ | ⟨slot, hv, hrange, habs, hnew, hcase⟩
        · rw [heq] at hrest ⊢
          exact reserve_content ks h hc hw hrest
        · rw [heq]
          exact ⟨hc, hw⟩
        · obtain ⟨hlt, hfree⟩ := pickVictim_free hv
          have hb₁ : Batch (describedInto c k slot) w := h.congr rfl rfl rfl rfl rfl
          -- the slot given away next is none of the work list's, whose metadata stands
          have hw₁ : WorkDescribed (describedInto c k slot) w := by
            intro x hx
            have hmeta : (describedInto c k slot).slotMeta x.slot = c.slotMeta x.slot :=
              Function.update_of_ne (h.slot_ne hfree hx) _ _
            rw [hmeta]
            exact List.mem_cons_of_mem _ (hw x hx)
          rcases hcase with ⟨href, heq⟩ | ⟨hrc, hsize, heq⟩
          · rw [heq] at hrest ⊢
            refine reserve_content ks hb₁ ?_ hw₁ hrest
            intro s old hold
            by_cases hs : s = slot
            · -- the victim keeps its key, and the refusal left its metadata alone
              subst hs
              have hsame := hharm hrange habs hnew s old hv hold href
              refine (hc s old hold).frame (.of_arena rfl (List.subset_cons_self _ _) ?_ rfl) rfl rfl
              exact (Function.update_self ..).trans hsame
            · exact (hc s old hold).frame (describedInto_sameSlot hs) rfl rfl
          · rw [heq] at hrest ⊢
            refine reserve_content ks (reserveSlot_batch hb₁ hlt hfree hrange habs hnew _) ?_ ?_ hrest
            · -- a slot that still has its key is not the one just taken
              intro s old hold
              have hold : Function.update c.keyOf slot .inflight s = .key old := hold
              have hs : s ≠ slot := by
                rintro rfl
                rw [Function.update_self] at hold
                cases hold
              rw [Function.update_of_ne hs] at hold
              exact (hc s old hold).frame ((describedInto_sameSlot hs).trans
                (.of_arena rfl (List.Subset.refl _) rfl rfl)) rfl rfl
            · intro x hx
              rcases List.mem_append.mp hx with hx | hx
              · exact hw₁ x hx
              · obtain rfl := List.mem_singleton.mp hx
                have hev : Event.describe k (c.src.describe c.ctx k (c.slotMeta slot)).rc
                    (c.src.describe c.ctx k (c.slotMeta slot)).nbytes
                    (c.src.describe c.ctx k (c.slotMeta slot)).wrote ∈ (describedInto c k slot).log :=
                  List.mem_cons_self ..
                rw [hrc] at hev
                show Event.describe k 0 _ (Function.update c.slotMeta slot _ slot) ∈ _
                rw [Function.update_self]
                exact hev

/-- The reads of a batch leave every slot outside it as it was. -/
theorem loadAll_sameSlot : ∀ (ws : List Work) {c : EngCache σ m} {s : Nat}, s ∉ ws.map Work.slot →
    SameSlot c (loadAll c ws).1 s ∧ (loadAll c ws).1.nbytes = c.nbytes ∧ (loadAll c ws).1.pad = c.pad
  | [], c, s, _ => ⟨.of_arena rfl (List.Subset.refl _) rfl rfl, rfl, rfl⟩
  | w :: ws, c, s, hs => by
      have hne : s ≠ w.slot := fun heq => hs (heq ▸ List.mem_cons_self ..)
      obtain ⟨hsame, hn, hp⟩ := loadAll_sameSlot ws (c := c.loaded w.key w.slot w.need)
        fun hmem => hs (List.mem_cons_of_mem _ hmem)
      exact ⟨(loaded_sameSlot c w.key w.need hne).trans hsame, hn, hp⟩

theorem loadAll_delivered : ∀ (ws : List Work) {c : EngCache σ m}, (ws.map Work.slot).Nodup →
    WorkDescribed c ws → LoadsClean c ws →
    ∀ w ∈ (loadAll c ws).2, w.got = w.need →
      Delivered (loadAll c ws).1 w.key w.slot w.need w.pad ∧ toInt32 w.pad = w.pad
  | [], c, _, _, _, w, hw, _ => by cases hw
  | x :: xs, c, hnodup, hdesc, hclean, w, hw, hgot => by
      obtain ⟨hslot, hnodup'⟩ := List.nodup_cons.mp hnodup
      unfold LoadsClean at hclean
      rcases List.mem_cons.mp hw with rfl | hw
      · have hdel := loaded_delivered (hdesc x (List.mem_cons_self ..)) hgot
        exact ⟨hdel.frame (loadAll_sameSlot xs hslot).1, hclean.1 hgot⟩
      · refine loadAll_delivered xs hnodup' ?_ hclean.2 w hw hgot
        intro y hy
        exact List.mem_cons_of_mem _ (hdesc y (List.mem_cons_of_mem _ hy))

theorem publishAll_content : ∀ (ws : List Work) {c : EngCache σ m} (ok : Nat), Batch c ws →
    Content c → (∀ w ∈ ws, w.got = w.need → Delivered c w.key w.slot w.need w.pad ∧
      toInt32 w.pad = w.pad) → Content (publishAll c ws ok).1
  | [], c, ok, _, hc, _ => hc
  | w :: ws, c, ok, h, hc, hdel => by
      have hfl : c.keyOf w.slot = .inflight := (h.inflight w.slot).mpr (List.mem_cons_self ..)
      have hrest : ∀ {c' : EngCache σ m}, c'.stride = c.stride → c.log ⊆ c'.log →
          c'.slotMeta = c.slotMeta → c'.arena = c.arena →
          ∀ x ∈ ws, x.got = x.need → Delivered c' x.key x.slot x.need x.pad ∧ toInt32 x.pad = x.pad := by
        intro c' hst hlog hmeta harena x hx hgot
        obtain ⟨hd, hf⟩ := hdel x (List.mem_cons_of_mem _ hx) hgot
        exact ⟨hd.frame (.of_arena hst hlog (by rw [hmeta]) harena), hf⟩
      unfold publishAll
      by_cases hgot : w.got = w.need
      · rw [if_neg (not_not.mpr hgot)]
        have hb : Batch { (c.publish w.key w.slot w.got w.pad) with
            prefetchReads := c.prefetchReads + 1 } ws :=
          (h.publish w.got w.pad).congr rfl rfl rfl rfl rfl
        refine publishAll_content ws (ok + 1) hb ?_ (hrest rfl (List.Subset.refl _) rfl rfl)
        intro s k hk
        have hk : Function.update c.keyOf w.slot (.key w.key) s = .key k := hk
        obtain ⟨hd, hfits⟩ := hdel w (List.mem_cons_self ..) hgot
        have hserved : Served (c.publish w.key w.slot w.got w.pad) s k := by
          by_cases hs : s = w.slot
          · subst hs
            rw [Function.update_self] at hk
            obtain rfl := SlotState.key.inj hk
            rw [hgot]
            exact hd.publish hfits
          · rw [Function.update_of_ne hs] at hk
            exact publish_served_other w.key w.slot w.got w.pad hs (hc s k hk)
        exact hserved.frame (.of_arena rfl (List.Subset.refl _) rfl rfl) rfl rfl
      · rw [if_pos hgot]
        refine publishAll_content ws ok h.markEmpty ?_ (hrest rfl (List.Subset.refl _) rfl rfl)
        intro s k hk
        have hk : Function.update c.keyOf w.slot .empty s = .key k := hk
        have hs : s ≠ w.slot := by
          rintro rfl
          rw [Function.update_self] at hk
          cases hk
        rw [Function.update_of_ne hs] at hk
        exact (hc s k hk).frame (.of_arena rfl (List.Subset.refl _) rfl rfl) rfl rfl

theorem engCacheGetMany_content (h : Quiet c) (hc : Content c) {keys : List Nat}
    (hclean : Clean c (.getMany keys)) : Content (engCacheGetMany c keys).1 := by
  obtain ⟨hreserve, hloads⟩ := hclean
  obtain ⟨hb, -⟩ := reserve_batch keys h
  obtain ⟨hc₁, hw₁⟩ := reserve_content keys h hc (fun w hw => by cases hw) hreserve
  unfold engCacheGetMany
  simp only
  split_ifs with hnil
  · exact hc₁
  · have hperm := issueOrder_perm (reserve c keys []).1 (reserve c keys []).2
    have hb' := hb.perm (hperm.map _) (hperm.map _)
    generalize issueOrder (reserve c keys []).1 (reserve c keys []).2 = ws at *
    generalize (reserve c keys []).1 = c₁ at *
    have hw' : WorkDescribed c₁ ws := fun w hw => hw₁ w (hperm.mem_iff.mp hw)
    have hunpinned : ∀ w ∈ ws, c₁.pinned w.slot = false := fun w hw =>
      hb'.toIndex.unpinned (Or.inr ((hb'.inflight w.slot).mpr (List.mem_map_of_mem hw)))
    obtain ⟨new, hf, -, hso, hko, hpi, -⟩ := loadAll_frame ws hunpinned
    obtain ⟨hmap, hkeys⟩ := loadAll_works ws c₁
    have hb₂ : Batch (loadAll c₁ ws).1 (loadAll c₁ ws).2 :=
      (hb'.congr hso hko hpi hf.cfg hf.nslot).perm (by rw [hmap]) (by rw [hkeys])
    refine publishAll_content _ 0 hb₂ ?_ (loadAll_delivered ws hb'.slots hw' hloads)
    intro s k hk
    rw [hko] at hk
    have hs : s ∉ ws.map Work.slot := by
      intro hmem
      rw [(hb'.inflight s).mpr hmem] at hk
      cases hk
    obtain ⟨hsame, hn, hp⟩ := loadAll_sameSlot ws (c := c₁) hs
    exact (hc₁ s k hk).frame hsame (by rw [hn]) (by rw [hp])

/-! ## Whole runs -/

theorem applyOp_content (h : Quiet c) (hc : Content c) {op : Op} (hclean : Clean c op) :
    Content (applyOp c op) := by
  cases op with
  | get key =>
      show Content (engCacheGet c key).1
      unfold engCacheGet
      split_ifs with hrange
      · have hrec : Content (record c key) := hc.congr rfl rfl (List.Subset.refl _) rfl rfl rfl rfl
        exact admitKey_content hrec (hclean hrange)
      · exact hc
  | getMany keys => exact engCacheGetMany_content h hc hclean
  | peek key => exact hc
  | pin key pin =>
      show Content (engCachePin c key pin).1
      unfold engCachePin
      split_ifs
      · cases c.slotOf key with
        | none => exact hc
        | some slot => exact hc.congr rfl rfl (List.Subset.refl _) rfl rfl rfl rfl
      · exact hc
  | resetStats => exact hc.congr rfl rfl (List.Subset.refl _) rfl rfl rfl rfl

theorem reaches_content {cfg : EngCacheCfg} {src : EngCacheSrc σ m} {ctx : σ} {arena : Int → UInt8}
    {c₀ : EngCache σ m} (hc : engCacheCreate cfg src ctx arena = some c₀)
    (hr : Reaches step Clean c₀ c) : Quiet c ∧ Content c := by
  have hstart : Content c₀ := by
    unfold engCacheCreate at hc
    simp only at hc
    split_ifs at hc
    obtain rfl := Option.some.inj hc
    intro slot k hk
    cases hk
  refine hr.invariant (P := fun c => Quiet c ∧ Content c) ⟨engCacheCreate_quiet hc, hstart⟩ ?_
  intro s op s' ⟨hq, hcon⟩ hclean hs
  obtain rfl := Option.some.inj hs
  exact ⟨(applyOp_ok hq op).1, applyOp_content hq hcon hclean⟩

/-- A key that is resident after a successful `get` is the one that was asked for. -/
theorem admitKey_slot (h : Quiet c) {key slot : Nat}
    (hs : (admitKey c key).2 = some slot) : (admitKey c key).1.keyOf slot = .key key := by
  rcases admitKey_cases c key with ⟨slot', hso, heq⟩ | ⟨-, -, heq⟩ | ⟨-, -, v, -, heq⟩
  · rw [heq] at hs ⊢
    obtain rfl := Option.some.inj hs
    exact (h.inverse key slot').mp hso
  · rw [heq] at hs
    cases hs
  · rw [heq] at hs ⊢
    by_cases hgot : (((admitDescribed c key).1.install v (admitDescribed c key).2.wrote).load key v).got =
        (admitDescribed c key).2.nbytes
    · rw [fill_full hgot] at hs ⊢
      obtain rfl := Option.some.inj hs
      exact Function.update_self ..
    · rw [fill_short hgot] at hs
      cases hs

/-- **Clean runs serve genuine entries**, to `peek` in every state reached and to every clean `get`
from it, with any source. -/
theorem clean_runs_serve_genuine {cfg : EngCacheCfg} {src : EngCacheSrc σ m} {ctx : σ}
    {arena : Int → UInt8} {c₀ : EngCache σ m} (hc : engCacheCreate cfg src ctx arena = some c₀)
    (hr : Reaches step Clean c₀ c) :
    (∀ k e, engCachePeek c k = some e → Genuine c k e) ∧
      ∀ k e, Clean c (.get k) → (engCacheGet c k).2 = some e → Genuine (engCacheGet c k).1 k e := by
  obtain ⟨hq, hcon⟩ := reaches_content hc hr
  refine ⟨fun k e he => ?_, fun k e hclean he => ?_⟩
  · unfold engCachePeek at he
    split_ifs at he
    obtain ⟨slot, hs, rfl⟩ := Option.map_eq_some_iff.mp he
    exact (hcon slot k ((hq.inverse k slot).mp hs)).genuine
  · have hcon' := applyOp_content hq hcon hclean
    simp only [applyOp] at hcon'
    unfold engCacheGet at he hcon' ⊢
    split_ifs at he hcon' ⊢ with hrange
    obtain ⟨slot, hs, rfl⟩ := Option.map_eq_some_iff.mp he
    have hq' : Quiet (record c k) := Batch.congr hq rfl rfl rfl rfl rfl
    exact (hcon' slot k (admitKey_slot hq' hs)).genuine

/-- The cache of `nslot` slots over `refusesOne`, just created. -/
def tinyCache (nslot : Nat) : EngCache Unit 1 :=
  { cfg := tinyCfg nslot, src := refusesOne, ctx := (), stride := 12288, nslot := nslot
    arena := fun _ => 0, slotOf := fun _ => none, keyOf := fun _ => .empty, usedAt := fun _ => 0
    pinned := fun _ => false, slotMeta := fun _ => #v[0], pad := fun _ => 0, nbytes := fun _ => 0
    clock := 0, hits := 0, misses := 0, evictions := 0, bytesRead := 0, prefetchReads := 0
    requests := 0, hist := fun _ => 0, trace := [], log := [] }

/-- Key 1 is refused while an EMPTY slot is the victim: the resident key 0 is not disturbed, and
key 2 of the same batch is served. -/
theorem clean_batch_serves_genuine :
    ∃ c, engCacheCreate (tinyCfg 2) refusesOne () (fun _ => 0) = some (tinyCache 2) ∧
      Reaches step Clean (tinyCache 2) c ∧ engCachePeek c 2 = some ⟨12288, 1, #v[12]⟩ ∧
      Genuine c 2 ⟨12288, 1, #v[12]⟩ := by
  have hc : engCacheCreate (tinyCfg 2) refusesOne () (fun _ => 0) = some (tinyCache 2) := by rfl
  have hget : Clean (tinyCache 2) (.get 0) := fun _ _ _ _ _ _ => rfl
  have hbatch : Clean (applyOp (tinyCache 2) (.get 0)) (.getMany [1, 2]) := by
    refine ⟨fun _ => ⟨fun _ _ _ slot old hv hk => ?_, fun _ => ⟨fun _ _ _ slot old hv hk => ?_, ?_⟩⟩,
      fun _ => rfl, trivial⟩
    · obtain rfl : 1 = slot := Option.some.inj hv
      cases hk
    · obtain rfl : 1 = slot := Option.some.inj hv
      cases hk
    · trivial
  have hr : Reaches step Clean (tinyCache 2)
      (applyOp (applyOp (tinyCache 2) (.get 0)) (.getMany [1, 2])) :=
    .next (.next .start hget rfl) hbatch rfl
  exact ⟨_, hc, hr, rfl, (clean_runs_serve_genuine hc hr).1 2 _ rfl⟩

/-- **The clobbered victim.**  One slot, holding key 0; a batch asks for key 1, which is refused
after its metadata (11) was written over key 0's (10).  `peek` then serves key 0 with 11. -/
theorem refused_batch_key_clobbers_resident :
    ∃ c e, engCacheCreate (tinyCfg 1) refusesOne () (fun _ => 0) = some (tinyCache 1) ∧
      Reaches step anyChoice (tinyCache 1) c ∧ engCachePeek c 0 = some e ∧ ¬ Genuine c 0 e := by
  have hr : Reaches step anyChoice (tinyCache 1)
      (applyOp (applyOp (tinyCache 1) (.get 0)) (.getMany [1])) :=
    .next (.next .start trivial rfl) trivial rfl
  refine ⟨_, ⟨0, 1, #v[11]⟩, rfl, hr, rfl, ?_⟩
  rintro ⟨slot, off, buf, hdesc, -⟩
  have hlog : (applyOp (applyOp (tinyCache 1) (.get 0)) (.getMany [1])).log =
      [.describe 1 (-1) 1 #v[11], .load 0 0 #v[10] 1 1 0 (fun _ => 20), .describe 0 0 1 #v[10]] := by
    rfl
  rw [hlog] at hdesc
  simp at hdesc

end LlmEngine.Storage.Cache
