import Mathlib.Data.Rat.Init

/-!
The configured values of `config.mk`, as exact numbers.
-/

namespace PanTilt.App

/-- The board the program is built for. -/
inductive Platform
  | rpi
  | de10
  deriving DecidableEq

def WIDTH : ℕ := 640
def HEIGHT : ℕ := 480

def MIN_GREEN_PIXELS : ℕ := 1000

def GREEN_H_MIN : ℚ := 90.0
def GREEN_H_MAX : ℚ := 180.0
def GREEN_S_MIN : ℚ := 0.25
def GREEN_V_MIN : ℚ := 0.1

def PWM_MID_POINT : ℕ := 2048

def PITCH_MIN_RAD : ℚ := 0.2617993878
def PITCH_MAX_RAD : ℚ := 2.3561944902
def YAW_MIN_RAD : ℚ := 0.0
def YAW_MAX_RAD : ℚ := 3.1415926536

def YAW_PWM_MIN : ℚ := -2048.0
def YAW_PWM_MAX : ℚ := 2048.0
def PITCH_PWM_MIN : ℚ := -512.0
def PITCH_PWM_MAX : ℚ := 512.0

def PITCH_RAD_PER_PIXEL : ℚ := 0.001
def YAW_RAD_PER_PIXEL : ℚ := 0.001

end PanTilt.App
