import ClientBuild.Text.Search

/-!
# Utility classes

A class name is a utility if it begins with one of a fixed list of beginnings, possibly behind
one state such as `dark:`, or if it is marked as important.  Only utilities are renamed.
-/

namespace ClientBuild.Style

/-- The beginnings of utility names. -/
def utilityStarts : List String :=
  -- layout
  ["container", "flex", "grid", "block", "inline", "hidden", "visible",
  -- spacing
   "p-", "px-", "py-", "pt-", "pr-", "pb-", "pl-",
   "m-", "mx-", "my-", "mt-", "mr-", "mb-", "ml-", "space-", "gap-",
  -- size
   "w-", "h-", "min-w-", "max-w-", "min-h-", "max-h-",
  -- color
   "bg-", "text-", "border-", "ring-", "shadow-",
  -- border
   "border", "rounded", "ring",
  -- type
   "font-", "leading-", "tracking-", "antialiased",
  -- position
   "absolute", "relative", "fixed", "sticky", "static",
   "top-", "right-", "bottom-", "left-", "inset-", "z-",
  -- transform
   "transform", "translate-", "rotate-", "scale-", "skew-",
  -- transition
   "transition", "duration-", "ease-", "delay-",
  -- interaction
   "cursor-", "select-", "pointer-events-",
  -- overflow
   "overflow-", "truncate", "scroll-",
  -- state of the element
   "hover:", "focus:", "active:", "disabled:", "group-hover:"]

/-- The states that may stand in front of a utility. -/
def stateStarts : List String :=
  ["dark:", "dark:!", "light:", "sm:", "md:", "lg:", "xl:", "2xl:"]

/-- Does the name begin like a utility? -/
def startsAsUtility (name : List Char) : Bool :=
  utilityStarts.any fun u => Text.startsWith u.toList name

/-- Is the class name a utility?  A leading `!` marks one, unless the text is a comparison. -/
def isUtility (name : List Char) : Bool :=
  (name.head? == some '!' && !Text.contains ['!', '='] name) ||
    startsAsUtility name ||
    stateStarts.any fun st =>
      match Text.after? st.toList name with
      | some rest => startsAsUtility rest
      | none => false

end ClientBuild.Style
